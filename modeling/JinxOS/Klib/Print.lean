import JinxOS.Klib.Snprintf

/-!
# Formatting to the console

The code of `klib/print.c`.  `printnum` prints the digits from the last one up by recursion, and the
innermost call the padding; there is no buffer, and no padding on the right.  For a character that
is no conversion the printer puts out the `%` and goes back to the character after it, which it
looks for from the end: whatever comes between is then put out like any other text.

Numbers of type `long double` are a type with the operations that `printfloat` makes use of.

* `printnum_eq` — the text of a number is its numeral with the padding in front;
* `printers_agree` — it is the text that `snprintnum` has for it;
* `vprintfmt_ok` — `vprintfmt` always returns;
* `formatters_stop_iff` — **the printers stop at the end of the format**, one of them always and the
  other one if the format is complete.
-/

namespace JinxOS

open Numeral

/-! ## Numbers -/

/-- The recursion of `printnum`, with a bound on how deep it goes. -/
def printDigits (base : Nat) (padc : UInt8) : Nat → Nat → Int → Except FormatFault (List Int)
  | 0, _, _ => .error .diverges
  | depth + 1, num, width => do
    let cs ←
      if base ≤ num then printDigits base padc depth (num / base) (toInt (width - 1))
      else .ok (pad padc (toInt (width - 1)))
    .ok (cs ++ [digitChar (num % base)])

/-- `printnum`: what it puts out. -/
def printnum (num base : Nat) (width : Int) (padc : UInt8) : Except FormatFault (List Int) :=
  printDigits base padc 64 num width

theorem printDigits_eq {base : Nat} (hb : 1 < base) (padc : UInt8) :
    ∀ {depth num : Nat} (width : Int),
    num < base ^ (depth + 1) → printDigits base padc (depth + 1) num width =
      .ok (pad padc (toInt (width - (numeral base num).length)) ++
        (numeral base num).map digitChar) := by
  intro depth
  induction depth with
  | zero =>
    intro num width hnum
    have hlt : num < base := by rwa [Nat.zero_add, Nat.pow_one] at hnum
    rw [printDigits, if_neg (Nat.not_le.2 hlt), numeral_of_lt hlt, Nat.mod_eq_of_lt hlt]
    rfl
  | succ depth ih =>
    intro num width hnum
    rw [printDigits]
    by_cases hdigit : num < base
    · rw [if_neg (Nat.not_le.2 hdigit), numeral_of_lt hdigit, Nat.mod_eq_of_lt hdigit]
      rfl
    · have hq : num / base < base ^ (depth + 1) := by
        rw [Nat.div_lt_iff_lt_mul (by omega)]
        exact hnum
      have hwidth : toInt (toInt (width - 1) - (numeral base (num / base)).length) =
          toInt (width - (numeral base num).length) := by
        rw [Int.sub_eq_add_neg, toInt_toInt_add, numeral_step hb (Nat.not_lt.1 hdigit),
          List.length_append, List.length_singleton]
        congr 1
        omega
      rw [if_pos (Nat.not_lt.1 hdigit), ih _ hq, hwidth, numeral_step hb (Nat.not_lt.1 hdigit),
        List.map_append]
      simp only [Except.bind, bind, List.append_assoc]
      rfl

/-- **The text of a number**: its numeral, with the padding on the left. -/
theorem printnum_eq {num base : Nat} (hb : 1 < base) (hnum : num < 2 ^ 64) (width : Int)
    (padc : UInt8) : printnum num base width padc =
      .ok (pad padc (toInt (width - (numeral base num).length)) ++
        (numeral base num).map digitChar) :=
  printDigits_eq hb padc width (lt_of_lt_of_le hnum (Nat.pow_le_pow_left hb 64))

/-- **The two printers agree.**  For all numbers, bases and widths, and all characters to pad with
but `-`, both put out the padding and then the digits, the most significant one first.  There are at
most 64 digits, so the 68 bytes of `snprintnum` are enough. -/
theorem printers_agree {num base : Nat} {width : Int} {padc : UInt8} (hnum : num < 2 ^ 64)
    (hbase : 2 ≤ base ∧ base ≤ 16) (hwidth : 0 ≤ width ∧ width < 2 ^ 31) (hpad : padc ≠ byte '-') :
    (numeral base num).length ≤ 64 ∧ positional base (numeral base num) = num ∧
    printnum num base width padc =
      .ok (List.replicate (width - (numeral base num).length).toNat (padc.toNat : Int) ++
        (numeral base num).map digitChar) ∧
    snprintnum num base width padc = printnum num base width padc := by
  have hlength : (numeral base num).length ≤ 64 := by
    refine numeral_length_le hbase.1 (by decide) (lt_of_lt_of_le hnum ?_)
    exact Nat.pow_le_pow_left hbase.1 64
  have hint : toInt (width - (numeral base num).length) = width - (numeral base num).length :=
    toInt_eq
  have hprint := printnum_eq hbase.1 hnum width padc
  rw [hint] at hprint
  refine ⟨hlength, positional_numeral hbase.1, hprint, ?_⟩
  rw [snprintnum_eq hbase.1 hnum, hprint, padDigits, if_neg hpad, List.length_map]

/-- The number 255 in hexadecimal, in four places. -/
theorem printers_agree_ff : printnum 255 16 4 (byte '0') = .ok (['0', '0', 'f', 'f'].map chr) ∧
    snprintnum 255 16 4 (byte '0') = .ok (['0', '0', 'f', 'f'].map chr) := by
  have hprint : printnum 255 16 4 (byte '0') = .ok (['0', '0', 'f', 'f'].map chr) := by decide
  obtain ⟨-, -, -, hsame⟩ :=
    @printers_agree 255 16 4 (byte '0') (by decide) (by decide) (by decide) (by decide)
  exact ⟨hprint, hsame.trans hprint⟩

/-- What `printfloat` does with a `long double`. -/
class LongDouble (F : Type) where
  /-- `real < 0.0`. -/
  isNeg : F → Bool
  /-- `-real`. -/
  neg : F → F
  /-- `(unsigned long long) real`. -/
  toULL : F → BitVec 64
  /-- `real - integer`. -/
  subULL : F → BitVec 64 → F
  /-- `real * 10`. -/
  mul10 : F → F

/-- Where no `long double` is printed, any type will do for them. -/
instance instLongDoubleUnit : LongDouble Unit := ⟨fun _ => false, id, fun _ => 0, fun _ _ => (), id⟩

section
variable {F σ : Type} [LongDouble F]

/-- `printfloat`: what it puts out. -/
def printfloat (real : F) (padc : UInt8) : Except FormatFault (List Int) := do
  let sign := if LongDouble.isNeg real then [chr '-'] else []
  let real := if LongDouble.isNeg real then LongDouble.neg real else real
  let integer := LongDouble.toULL real
  let before ← printnum integer.toNat 10 0 padc
  let fraction := (List.range 8).foldl (fun x _ => LongDouble.mul10 x)
    (LongDouble.subULL real integer)
  let after ← printnum (LongDouble.toULL fraction).toNat 10 0 padc
  .ok (sign ++ before ++ [chr '.'] ++ after)

/-! ## The formatter -/

/-- `for (…; fmt[-1] != '%'; fmt--)`, with `fmt` at an index. -/
def rewind (fmt : CString) : Nat → Except FormatFault Nat
  | 0 => .error .outside
  | j + 1 => do
    let ch ← readByte fmt j
    if ch = byte '%' then .ok (j + 1) else rewind fmt j

/-- The code at `number`, after the characters `sign` have been put out. -/
def prNumber (d : Directive) (sign : List Int) (num : BitVec 64) (base : Nat) :
    Except FormatFault Converted := do
  let cs ← printnum num.toNat base d.flags.width d.flags.padc
  .ok ⟨sign ++ cs, d.pos, d.args + 1⟩

/-- The conversions of `vprintfmt`. -/
def prConvert (fmt : CString) (ap : VaList F) (d : Directive) : Except FormatFault Converted :=
  let arg := ap d.args
  let lflag := d.flags.lflag
  match label d.ch with
  | .chr => .ok ⟨[arg.word.toInt], d.pos, d.args + 1⟩
  | .str => .ok ⟨convertString d.flags (arg.str.getD nullText), d.pos, d.args + 1⟩
  | .dec =>
    let num := getint arg lflag
    if num.toInt < 0 then prNumber d [chr '-'] (-num) 10 else prNumber d [] num 10
  | .uns => prNumber d [] (getuint arg lflag) 10
  | .oct => prNumber d [] (getuint arg lflag) 8
  | .ptr => prNumber d [chr '0', chr 'x'] (arg.word.setWidth 64) 16
  | .hex => prNumber d [] (getuint arg lflag) 16
  | .flt => do
    let cs ← printfloat arg.real d.flags.padc
    .ok ⟨cs, d.pos, d.args + 1⟩
  | .percent => .ok ⟨[d.ch.toNat], d.pos, d.args⟩
  | _ => do
    let pos ← rewind fmt (d.pos - 1)
    .ok ⟨[chr '%'], pos, d.args⟩

/-- What is particular to `vprintfmt`. -/
def prPrinter : Printer F := ⟨false, prConvert⟩

/-- `vprintfmt`. -/
def vprintfmt (putc : Int → σ → σ) (fmt : CString) (ap : VaList F) (st : σ) :
    Except FormatFault σ :=
  format prPrinter putc fmt ap st

/-- The printer goes back to the `%`, from a character that has none after it. -/
theorem rewind_eq {fmt : CString} {i : Nat} (hpercent : byteAt fmt i = byte '%') :
    ∀ {m : Nat}, i < m → m ≤ fmt.strlen + 1 → (∀ j, i < j → j < m → byteAt fmt j ≠ byte '%') →
      rewind fmt m = .ok (i + 1) := by
  intro m
  induction m with
  | zero =>
    intro hi
    exact absurd hi (Nat.not_lt_zero i)
  | succ m ih =>
    intro hi hm hne
    rw [rewind, readByte_eq (by omega)]
    simp only [Except.bind, bind]
    rcases Nat.eq_or_lt_of_le (Nat.lt_succ_iff.1 hi) with rfl | hlt
    · rw [if_pos hpercent]
    · rw [if_neg (hne m hlt (Nat.lt_succ_self m))]
      exact ih hlt (by omega) fun j hij hj => hne j hij (by omega)

theorem prNumber_ok (d : Directive) (sign : List Int) (num : BitVec 64) {base : Nat}
    (hb : 1 < base) :
    ∃ c, prNumber d sign num base = .ok c ∧ c.pos = d.pos := by
  rw [prNumber, printnum_eq hb num.isLt]
  exact ⟨_, rfl, rfl⟩

theorem printfloat_ok (real : F) (padc : UInt8) : ∃ cs, printfloat real padc = .ok cs := by
  simp only [printfloat, printnum_eq (show 1 < 10 by decide) (BitVec.isLt _), Except.bind, bind]
  exact ⟨_, rfl⟩

/-- A conversion goes on behind its directive, or behind the `%` that begins it. -/
theorem prConvert_ok {fmt : CString} {i : Nat} {d : Directive} (ap : VaList F)
    (hpercent : byteAt fmt i = byte '%') (hd : Reached false fmt (i + 1) d) :
    ∃ c, prConvert fmt ap d = .ok c ∧
      (c.pos = i + 1 ∨ (c.pos = d.pos ∧ label d.ch ≠ .other)) := by
  have hlt := hd.lt
  have hle := hd.le
  have hrewind : rewind fmt (d.pos - 1) = .ok (i + 1) := by
    refine rewind_eq hpercent (by omega) (by omega) fun j hij hj hj' => ?_
    have hflag := hd.flags j hij hj
    rw [hj'] at hflag
    exact absurd hflag (by decide)
  have hnumber (sign : List Int) (num : BitVec 64) {base : Nat} (hb : 1 < base) {l : Label}
      (hl : l ≠ .other) : ∃ c, prNumber d sign num base = .ok c ∧
        (c.pos = i + 1 ∨ (c.pos = d.pos ∧ l ≠ .other)) := by
    obtain ⟨c, hc, hpos⟩ := prNumber_ok d sign num hb
    exact ⟨c, hc, .inr ⟨hpos, hl⟩⟩
  rw [prConvert]
  cases label d.ch with
  | chr | str | percent => exact ⟨_, rfl, .inr ⟨rfl, by decide⟩⟩
  | uns | oct | ptr | hex =>
    exact hnumber _ _ (by decide) (by decide)
  | dec =>
    dsimp only
    split <;> exact hnumber _ _ (by decide) (by decide)
  | flt =>
    obtain ⟨cs, hcs⟩ := printfloat_ok (ap d.args).real d.flags.padc
    exact ⟨⟨cs, d.pos, d.args + 1⟩, by simp only [hcs]; rfl, .inr ⟨rfl, by decide⟩⟩
  | minus | zero | digit | star | dot | hash | ell | zed | bin | other =>
    exact ⟨⟨[chr '%'], i + 1, d.args⟩, by simp only [hrewind]; rfl, .inl rfl⟩

/-- **`vprintfmt` returns**, whatever the format. -/
theorem vprintfmt_ok (putc : Int → σ → σ) (fmt : CString) (ap : VaList F) (st : σ) :
    ∃ st', vprintfmt putc fmt ap st = .ok st' := by
  have hrun := formatLoop_cases prPrinter putc fmt ap (P := fun _ => True) (Q := False)
    (fun _ _ _ _ => trivial)
    (fun i d hi hpercent _ hd => by
      have hlt := hd.lt
      have hle := hd.le
      obtain ⟨c, hc, hpos | ⟨hpos, hother⟩⟩ := prConvert_ok ap hpercent hd
      · exact ⟨c, hc, by omega, .inl ⟨by omega, trivial⟩⟩
      · -- the byte that ends the format has no label of its own
        have hend : d.pos - 1 ≠ fmt.strlen := fun hend => by
          have hzero := (byteAt_eq_zero (by omega)).2 hend
          rw [hd.ch_eq] at hzero
          exact hother (by rw [hzero]; decide)
        exact ⟨c, hc, by omega, .inl ⟨by omega, trivial⟩⟩)
    (fmt.strlen + 2) 0 0 st (Nat.zero_le _) trivial (by omega)
  rcases hrun with ⟨st', hret, -⟩ | ⟨-, hfalse⟩
  · exact ⟨st', hret⟩
  · exact hfalse.elim

/-- **The printers and the end of the format.**  `vprintfmt` returns for every format, without
reading a byte after the one that ends it.  `vsnprintfmt` does so exactly for the formats that do
not end in the middle of a directive; for the others it reads on behind the format. -/
theorem formatters_stop_iff (putch : Int → σ → σ) (fmt : CString) (ap : VaList F) (st : σ) :
    (∃ st', vprintfmt putch fmt ap st = .ok st') ∧
      ((∃ st', vsnprintfmt putch fmt ap st = .ok st') ↔ Complete fmt) ∧
      (¬ Complete fmt → vsnprintfmt putch fmt ap st = .error .outside) := by
  refine ⟨vprintfmt_ok putch fmt ap st, ?_⟩
  rcases vsnprintfmt_cases putch fmt ap st with ⟨st', hret, hcomplete⟩ | ⟨hret, hnot⟩
  · exact ⟨iff_of_true ⟨st', hret⟩ hcomplete, fun hnot => absurd hcomplete hnot⟩
  · refine ⟨iff_of_false ?_ hnot, fun _ => hret⟩
    rintro ⟨st', hok⟩
    cases hok.symm.trans hret

end

/-- **A format that ends after `%`, or after a flag.**  The byte that ends the format is put out
like any character, and the next one is read. -/
theorem not_stops_percent :
    vsnprintfmt record ⟨['%'].map byte, by decide, by decide⟩
        (fun _ => (⟨0, 0, none, ()⟩ : Arg Unit)) [] = .error .outside ∧
      vsnprintfmt record ⟨['a', '%', '-', '5'].map byte, by decide, by decide⟩
        (fun _ => (⟨0, 0, none, ()⟩ : Arg Unit)) [] = .error .outside := by
  decide +kernel

end JinxOS
