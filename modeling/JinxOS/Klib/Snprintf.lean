import JinxOS.Klib.Format
import JinxOS.Lib.Numeral

/-!
# Formatting into a buffer

The code of `klib/snprintf.c`.  `snprintnum` fills a buffer of 68 characters with the digits of the
number, the last one first; a store past its end is the fault `bufOverflow`.  A character that is no
conversion is put out after the `%` and the `l`s before it, also if it is the byte that ends the
format: the loop then goes on behind the string.

`vsnprintf` puts the characters out with `sprintputch`, which counts all of them and stores those
for which there is room.  The format, the string arguments and the buffer are taken to be different
objects, as they have to be for any call of `snprintf`.

* `snprintnum_eq` — the text of a number is its numeral, padded;
* `vsnprintfmt_cases` — the formatter returns if the format is `Complete`, and otherwise reads past
  its end;
* `vsnprintf_truncates` — **the buffer holds the first characters of the text**, as many as there is
  room for, and a byte that ends them; nothing else is written.
-/

namespace JinxOS

open Numeral
open Function (update update_of_ne update_self)

/-! ## Numbers -/

/-- The loop that stores the digits of a number, in the order in which they are stored.  The first
argument is the room that is left. -/
def storeDigits (base : Nat) : Nat → Nat → Except FormatFault (List Int)
  | _, 0 => .ok []
  | 0, _ + 1 => .error .bufOverflow
  | room + 1, num + 1 => do
    let ds ← storeDigits base room ((num + 1) / base)
    .ok (digitChar ((num + 1) % base) :: ds)

/-- `snprintnum`: what it puts out. -/
def snprintnum (num base : Nat) (width : Int) (padc : UInt8) : Except FormatFault (List Int) := do
  let ds ← storeDigits base 68 num
  -- `if (x == buf) *x++ = '0'`
  let ds := if ds = [] then [chr '0'] else ds
  let left := if padc ≠ byte '-' then pad padc (width - ds.length) else []
  let right := if padc = byte '-' then pad (byte ' ') (toInt (width - ds.length)) else []
  .ok (left ++ ds.reverse ++ right)

theorem storeDigits_eq {base : Nat} (hb : 1 < base) : ∀ {room num : Nat}, num < base ^ room →
    storeDigits base room num = .ok ((base.digits num).map digitChar) := by
  intro room
  induction room with
  | zero =>
    intro num hnum
    obtain rfl : num = 0 := Nat.lt_one_iff.1 hnum
    rw [Nat.digits_zero]
    rfl
  | succ room ih =>
    intro num hnum
    cases num with
    | zero =>
      rw [Nat.digits_zero]
      rfl
    | succ num =>
      have hq : (num + 1) / base < base ^ room := by
        rw [Nat.div_lt_iff_lt_mul (by omega)]
        exact hnum
      rw [storeDigits, ih hq, Nat.digits_def' hb (Nat.succ_pos num)]
      rfl

/-- Digits with the padding on the left, or on the right if the padding character is `-`. -/
def padDigits (padc : UInt8) (width : Int) (ds : List Int) : List Int :=
  if padc = byte '-' then ds ++ pad (byte ' ') (toInt (width - ds.length))
  else pad padc (width - ds.length) ++ ds

/-- **The text of a number**: its numeral, padded. -/
theorem snprintnum_eq {num base : Nat} (hb : 1 < base) (hnum : num < 2 ^ 64) (width : Int)
    (padc : UInt8) : snprintnum num base width padc =
      .ok (padDigits padc width ((numeral base num).map digitChar)) := by
  have hroom : num < base ^ 68 :=
    calc num < 2 ^ 64 := hnum
      _ ≤ 2 ^ 68 := by decide
      _ ≤ base ^ 68 := Nat.pow_le_pow_left hb 68
  have hdigits : (if (base.digits num).map digitChar = [] then [chr '0']
      else (base.digits num).map digitChar).reverse = (numeral base num).map digitChar := by
    by_cases hzero : num = 0
    · rw [hzero, Nat.digits_zero]
      rfl
    · rw [if_neg (by rwa [List.map_eq_nil_iff, Nat.digits_eq_nil_iff_eq_zero]), numeral,
        if_neg hzero, List.map_reverse]
  rw [snprintnum, storeDigits_eq hb hroom]
  simp only [Except.bind, bind]
  rw [← hdigits, padDigits, List.length_reverse]
  by_cases hminus : padc = byte '-'
  · simp only [hminus, ne_eq, not_true_eq_false, if_true, if_false, List.nil_append]
  · simp only [hminus, ne_eq, not_false_eq_true, if_true, if_false, List.append_nil]

/-! ## The formatter -/

section
variable {F σ : Type}

/-- The code at `number`, after the characters `sign` have been put out. -/
def snNumber (d : Directive) (sign : List Int) (num : BitVec 64) (base : Nat) :
    Except FormatFault Converted := do
  let cs ← snprintnum num.toNat base (max d.flags.width 0) d.flags.padc
  .ok ⟨sign ++ cs, d.pos, d.args + 1⟩

/-- The conversions of `vsnprintfmt`. -/
def snConvert (ap : VaList F) (d : Directive) : Except FormatFault Converted :=
  let arg := ap d.args
  let lflag := d.flags.lflag
  match label d.ch with
  | .chr => .ok ⟨[arg.word.toInt], d.pos, d.args + 1⟩
  | .str => .ok ⟨convertString d.flags (arg.str.getD nullText), d.pos, d.args + 1⟩
  | .bin => snNumber d [] (getint arg lflag) 2
  | .dec =>
    let num := getint arg lflag
    if num.toInt < 0 then snNumber d [chr '-'] (-num) 10 else snNumber d [] num 10
  | .uns => snNumber d [] (getuint arg lflag) 10
  | .oct => snNumber d [] (getuint arg lflag) 8
  | .ptr => snNumber d [chr '0', chr 'x'] (arg.word.setWidth 64) 16
  | .hex => snNumber d [] (getuint arg lflag) 16
  | .percent => .ok ⟨[d.ch.toNat], d.pos, d.args⟩
  | _ =>
    .ok ⟨chr '%' :: List.replicate lflag.toNat (chr 'l') ++ [(d.ch.toNat : Int)], d.pos, d.args⟩

/-- What is particular to `vsnprintfmt`. -/
def snPrinter : Printer F := ⟨true, fun _ => snConvert⟩

/-- `vsnprintfmt`. -/
def vsnprintfmt (putch : Int → σ → σ) (fmt : CString) (ap : VaList F) (st : σ) :
    Except FormatFault σ :=
  format snPrinter putch fmt ap st

theorem snNumber_ok (d : Directive) (sign : List Int) (num : BitVec 64) {base : Nat}
    (hb : 1 < base) :
    ∃ c, snNumber d sign num base = .ok c ∧ c.pos = d.pos := by
  rw [snNumber, snprintnum_eq hb num.isLt]
  exact ⟨_, rfl, rfl⟩

theorem snConvert_ok (ap : VaList F) (d : Directive) :
    ∃ c, snConvert ap d = .ok c ∧ c.pos = d.pos := by
  rw [snConvert]
  cases label d.ch with
  | bin | uns | oct | ptr | hex =>
    exact snNumber_ok d _ _ (by decide)
  | dec =>
    dsimp only
    split <;> exact snNumber_ok d _ _ (by decide)
  | _ => exact ⟨_, rfl, rfl⟩

/-! ## Formats that end in the middle of a directive -/

/-- Does a format end in the middle of a directive?  A `%` begins a directive, and it goes on as
long as there are flags. -/
def midDirective (bytes : List UInt8) : Bool :=
  bytes.foldl (fun mid ch => if mid then isFlag true ch else ch == byte '%') false

/-- **Complete formats**: every directive comes to its last character before the string ends. -/
def Complete (fmt : CString) : Prop := midDirective fmt.bytes = false

instance instDecidableComplete (fmt : CString) : Decidable (Complete fmt) :=
  inferInstanceAs (Decidable (midDirective fmt.bytes = false))

theorem midDirective_take {fmt : CString} {i : Nat} (h : i < fmt.strlen) :
    midDirective (fmt.bytes.take (i + 1)) =
      if midDirective (fmt.bytes.take i) then isFlag true (byteAt fmt i)
      else byteAt fmt i == byte '%' := by
  rw [midDirective, List.take_succ_eq_append_getElem h, List.foldl_append, byteAt,
    List.getD_eq_getElem _ _ h]
  rfl

/-- The formatter is in the middle of a directive until it comes to a character that is no flag. -/
theorem Reached.midDirective {fmt : CString} {i : Nat} {d : Directive} (hd : Reached true fmt i d)
    (hmid : midDirective (fmt.bytes.take i) = true) :
    ∀ j, i ≤ j → j ≤ d.pos - 1 → JinxOS.midDirective (fmt.bytes.take j) = true := by
  intro j hij
  induction j, hij using Nat.le_induction with
  | base => exact fun _ => hmid
  | succ j hij ih =>
    intro hj
    have := hd.le
    rw [midDirective_take (by omega), ih (by omega), if_pos rfl]
    exact hd.flags j hij (by omega)

/-- **`vsnprintfmt` returns exactly if the format is complete**; if it is not, then it reads a byte
after the end of the format. -/
theorem vsnprintfmt_cases (putch : Int → σ → σ) (fmt : CString) (ap : VaList F) (st : σ) :
    (∃ st', vsnprintfmt putch fmt ap st = .ok st' ∧ Complete fmt) ∨
      (vsnprintfmt putch fmt ap st = .error .outside ∧ ¬ Complete fmt) := by
  have hwhole : fmt.bytes.take fmt.strlen = fmt.bytes := List.take_length
  have hrun := formatLoop_cases snPrinter putch fmt ap
    (P := fun i => midDirective (fmt.bytes.take i) = false) (Q := ¬ Complete fmt)
    (fun i hi hne hP => by
      rw [midDirective_take hi, hP]
      exact beq_eq_false_iff_ne.2 hne)
    (fun i d hi hpercent hP hd => by
      obtain ⟨c, hc, hpos⟩ := snConvert_ok ap d
      have hmid : midDirective (fmt.bytes.take (i + 1)) = true := by
        rw [midDirective_take hi, hP]
        exact beq_iff_eq.2 hpercent
      have hlt := hd.lt
      have hle := hd.le
      have hopen := hd.midDirective hmid (d.pos - 1) (by omega) (Nat.le_refl _)
      refine ⟨c, hc, by omega, ?_⟩
      by_cases hend : d.pos ≤ fmt.strlen
      · refine .inl ⟨by omega, ?_⟩
        have hstep := midDirective_take (show d.pos - 1 < fmt.strlen by omega)
        rw [Nat.sub_add_cancel (by omega), hopen, if_pos rfl, hd.ch_eq] at hstep
        rw [hpos, hstep]
        exact hd.notFlag
      · refine .inr ⟨by omega, fun hcomplete => ?_⟩
        rw [show d.pos - 1 = fmt.strlen by omega, hwhole] at hopen
        exact absurd (hcomplete.symm.trans hopen) (by decide))
    (fmt.strlen + 2) 0 0 st (Nat.zero_le _) rfl (by omega)
  rw [hwhole] at hrun
  exact hrun

theorem vsnprintfmt_feed (putch : Int → σ → σ) (fmt : CString) (ap : VaList F) (st : σ) :
    vsnprintfmt putch fmt ap st = (vsnprintfmt record fmt ap []).map (feed putch st) :=
  format_feed putch st

end

/-! ## The buffer -/

/-- `struct sprintbuf`, with the memory. -/
structure SprintBuf where
  mem : ByteMem
  buf : Nat
  ebuf : Nat
  cnt : Int

/-- `sprintputch`. -/
def sprintputch (ch : Int) (b : SprintBuf) : SprintBuf :=
  let b := { b with cnt := toInt (b.cnt + 1) }
  if b.buf < b.ebuf then
    { b with mem := update b.mem b.buf (UInt8.ofInt ch), buf := Word.add b.buf 1 }
  else b

section
variable {F : Type}

/-- `vsnprintf`: what it returns, and the memory. -/
def vsnprintf (mem : ByteMem) (buf n : Nat) (fmt : CString) (ap : VaList F) :
    Except FormatFault (Int × ByteMem) :=
  if buf = 0 ∨ n < 1 then .ok (einval, mem)
  else do
    let b ← vsnprintfmt sprintputch fmt ap ⟨mem, buf, Word.sub (Word.add buf n) 1, 0⟩
    .ok (b.cnt, update b.mem b.buf 0)

/-- `snprintf`. -/
def snprintf (mem : ByteMem) (buf n : Nat) (fmt : CString) (ap : VaList F) :
    Except FormatFault (Int × ByteMem) :=
  vsnprintf mem buf n fmt ap

/-- **What is in a buffer of `n` bytes after the characters `cs`**: as many of them as fit before
the last byte, in order, and all of them are counted. -/
structure TextFilled (mem : ByteMem) (buf n : Nat) (cs : List Int) (b : SprintBuf) : Prop where
  buf_eq : b.buf = buf + min cs.length (n - 1)
  ebuf_eq : b.ebuf = buf + (n - 1)
  cnt_eq : b.cnt = toInt cs.length
  stored : ∀ i, i < min cs.length (n - 1) → b.mem (buf + i) = UInt8.ofInt (cs.getD i 0)
  frame : ∀ a, a < buf ∨ b.buf ≤ a → b.mem a = mem a

variable {mem : ByteMem} {buf n : Nat}

theorem TextFilled.init (hn : 1 ≤ n) (hfit : buf + n ≤ 2 ^ 32) :
    TextFilled mem buf n [] ⟨mem, buf, Word.sub (Word.add buf n) 1, 0⟩ where
  buf_eq := by rw [List.length_nil, Nat.zero_min, Nat.add_zero]
  ebuf_eq := by
    dsimp only [Word.sub, Word.add]
    omega
  cnt_eq := rfl
  stored i hi := absurd hi (by rw [List.length_nil, Nat.zero_min]; exact Nat.not_lt_zero i)
  frame _ _ := rfl

theorem TextFilled.put {cs : List Int} {b : SprintBuf} (hn : 1 ≤ n) (hfit : buf + n ≤ 2 ^ 32)
    (h : TextFilled mem buf n cs b) (c : Int) :
    TextFilled mem buf n (cs ++ [c]) (sprintputch c b) := by
  have hlen : (cs ++ [c]).length = cs.length + 1 := List.length_append
  have hbuf := h.buf_eq
  have hebuf := h.ebuf_eq
  have hcnt : toInt (b.cnt + 1) = toInt ((cs ++ [c]).length : Int) := by
    rw [h.cnt_eq, toInt_toInt_add, hlen]
    rfl
  by_cases hroom : b.buf < b.ebuf
  · have hall : min cs.length (n - 1) = cs.length := by omega
    have hadd : Word.add b.buf 1 = b.buf + 1 := Word.add_eq
    rw [sprintputch, if_pos hroom, hadd]
    refine ⟨by dsimp only; omega, hebuf, hcnt, fun i hi => ?_, fun a ha => ?_⟩
    · dsimp only
      rcases Nat.lt_or_ge i cs.length with hlt | hge
      · rw [update_of_ne (by omega), h.stored i (by omega),
          List.getD_append _ _ _ _ hlt]
      · obtain rfl : i = cs.length := by omega
        rw [show buf + cs.length = b.buf by omega, update_self,
          List.getD_append_right _ _ _ _ (Nat.le_refl _), Nat.sub_self]
        rfl
    · dsimp only at ha ⊢
      rw [update_of_ne (by omega), h.frame a (by omega)]
  · rw [sprintputch, if_neg hroom]
    refine ⟨by dsimp only; omega, hebuf, hcnt, fun i hi => ?_, h.frame⟩
    rw [h.stored i (by omega), List.getD_append _ _ _ _ (by omega)]

theorem textFilled_feed (mem : ByteMem) (hn : 1 ≤ n) (hfit : buf + n ≤ 2 ^ 32) (cs : List Int) :
    TextFilled mem buf n cs
      (feed sprintputch ⟨mem, buf, Word.sub (Word.add buf n) 1, 0⟩ cs) := by
  induction cs using List.reverseRecOn with
  | nil => exact .init hn hfit
  | append_singleton cs c ih =>
    rw [← feed_feed]
    exact ih.put hn hfit c

/-- What `vsnprintf` leaves in memory for the characters `cs`. -/
structure Truncated (mem mem' : ByteMem) (buf n : Nat) (cs : List Int) : Prop where
  frame : ∀ a, a < buf ∨ buf + n ≤ a → mem' a = mem a
  chars : ∀ i, i < min cs.length (n - 1) → mem' (buf + i) = UInt8.ofInt (cs.getD i 0)
  nul : mem' (buf + min cs.length (n - 1)) = 0

/-- `vsnprintf` in terms of the characters that the formatter puts out. -/
theorem vsnprintf_eq {fmt : CString} {ap : VaList F} {cs : List Int}
    (hcs : vsnprintfmt record fmt ap [] = .ok cs) (hbuf : buf ≠ 0) (hn : 1 ≤ n)
    (hfit : buf + n ≤ 2 ^ 32) (mem : ByteMem) :
    ∃ mem', vsnprintf mem buf n fmt ap = .ok (toInt cs.length, mem') ∧
      Truncated mem mem' buf n cs := by
  have hfill := textFilled_feed mem hn hfit cs
  have hbuf' := hfill.buf_eq
  rw [vsnprintf, if_neg (by omega), vsnprintfmt_feed, hcs]
  refine ⟨_, congrArg (fun c => Except.ok (c, _)) hfill.cnt_eq, fun a ha => ?_, fun i hi => ?_, ?_⟩
  · rw [update_of_ne (by omega), hfill.frame a (by omega)]
  · rw [update_of_ne (by omega), hfill.stored i hi]
  · rw [← hbuf', update_self]

/-- **The buffer is respected and the text is cut off consistently.**  For every complete format and
every argument list there is a sequence of characters that `vsnprintfmt` puts out.  For every
buffer, `vsnprintf` returns its length and leaves the first characters of it in the buffer, at most
`n - 1` of them, with the byte that ends them behind; it writes nothing outside the buffer. -/
theorem vsnprintf_truncates {fmt : CString} (hfmt : Complete fmt) (ap : VaList F) :
    ∃ cs, vsnprintfmt record fmt ap [] = .ok cs ∧
      ∀ (mem : ByteMem) (buf n : Nat), buf ≠ 0 → 1 ≤ n → buf + n ≤ 2 ^ 32 →
        ∃ mem', vsnprintf mem buf n fmt ap = .ok (toInt cs.length, mem') ∧
          (cs.length < 2 ^ 31 → toInt cs.length = cs.length) ∧
          Truncated mem mem' buf n cs := by
  rcases vsnprintfmt_cases record fmt ap [] with ⟨cs, hcs, -⟩ | ⟨-, hnot⟩
  · refine ⟨cs, hcs, fun mem buf n hbuf hn hfit => ?_⟩
    obtain ⟨mem', hret, htrunc⟩ := vsnprintf_eq hcs hbuf hn hfit mem
    exact ⟨mem', hret, fun hlt => toInt_eq, htrunc⟩
  · exact absurd hfmt hnot

/-- The number 123 in a buffer of three bytes. -/
theorem vsnprintf_truncates_three :
    ∃ mem', vsnprintf (fun _ => 7) 4096 3 ⟨['%', 'd'].map byte, by decide, by decide⟩
        (fun _ => (⟨123, 123, none, ()⟩ : Arg Unit)) = .ok (3, mem') ∧
      mem' 4096 = 49 ∧ mem' 4097 = 50 ∧ mem' 4098 = 0 ∧ mem' 4099 = 7 := by
  obtain ⟨cs, hcs, hrun⟩ := vsnprintf_truncates
    (show Complete ⟨['%', 'd'].map byte, by decide, by decide⟩ by decide)
    (fun _ => (⟨123, 123, none, ()⟩ : Arg Unit))
  obtain rfl : cs = [49, 50, 51] := Except.ok.inj (hcs.symm.trans (by decide +kernel))
  obtain ⟨mem', hret, -, htrunc⟩ := hrun (fun _ => 7) 4096 3 (by decide) (by decide) (by decide)
  exact ⟨mem', hret, htrunc.chars 0 (by decide), htrunc.chars 1 (by decide), htrunc.nul,
    htrunc.frame 4099 (.inr (by decide))⟩

end

end JinxOS
