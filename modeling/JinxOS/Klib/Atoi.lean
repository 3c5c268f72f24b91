import JinxOS.Klib.IntFields

/-!
# Reading decimal numbers

The code of `klib/atoi.c`, and that it reads back what `snprintf` has written for `%d`.  `atoi`
skips blanks and a sign, and then adds up digits in an `unsigned` until it comes to a character that
is not in the list of digits.  What it returns is the `int` with the same bits, negated first if the
sign was `-`: so for a number of any length it is the value modulo `2 ^ 32`, and the least `int` is
no exception.

The text that `snprintf` leaves in memory is a string (`StringAt`), of at most eleven characters for
an `int`; it needs a buffer of twelve.
-/

namespace JinxOS

open Numeral

/-! ## The code -/

/-- `digits`. -/
def atoiDigits : List UInt8 := ['0', '1', '2', '3', '4', '5', '6', '7', '8', '9'].map byte

/-- The loop that skips blanks. -/
def skipBlanks : List UInt8 → List UInt8
  | [] => []
  | c :: s => if c = byte ' ' ∨ c = byte '\t' then skipBlanks s else c :: s

/-- The loop over the digits. -/
def atoiLoop : List UInt8 → Nat → Nat
  | [], val => val
  | c :: s, val =>
    match strchr atoiDigits c with
    | none => val
    | some digit => atoiLoop s (Word.add (Word.mul val 10) digit)

/-- `atoi`. -/
def atoi (str : CString) : Int :=
  let s := skipBlanks str.bytes
  let neg := s.headD 0 = byte '-'
  let s := if neg ∨ s.headD 0 = byte '+' then s.tail else s
  let val := atoiLoop s 0
  wordToInt (if neg then Word.sub 0 val else val)

/-! ## Digits -/

theorem strchr_digitByte : ∀ d < 10, strchr atoiDigits (digitByte d) = some d := by
  decide

theorem strchr_of_not_digit {c : UInt8} (hc : c ≠ 0) (hdigit : isDigit c = false) :
    strchr atoiDigits c = none := by
  refine Option.not_isSome_iff_eq_none.1 fun hfound => ?_
  have hmem : c ∈ atoiDigits := (isSome_strchr hc (by decide +kernel)).1 hfound
  have hall : ∀ b ∈ atoiDigits, isDigit b = true := by decide +kernel
  rw [hall c hmem] at hdigit
  cases hdigit

theorem atoiLoop_digits {rest : List UInt8} (hnul : 0 ∉ rest)
    (hrest : isDigit (rest.headD 0) = false) :
    ∀ (ds : List Nat) (val : Nat), (∀ d ∈ ds, d < 10) →
      atoiLoop (ds.map digitByte ++ rest) (val % 2 ^ 32) =
        ds.foldl (fun v d => v * 10 + d) val % 2 ^ 32 := by
  intro ds
  induction ds with
  | nil =>
    intro val _
    cases rest with
    | nil => rfl
    | cons c rest =>
      have hnone : strchr atoiDigits c = none :=
        strchr_of_not_digit (fun hc => hnul (hc ▸ List.mem_cons_self)) hrest
      rw [List.map_nil, List.nil_append, atoiLoop, hnone]
      rfl
  | cons d ds ih =>
    intro val hlt
    have hword : Word.add (Word.mul (val % 2 ^ 32) 10) d = (val * 10 + d) % 2 ^ 32 := by
      rw [Word.add, Word.mul]
      omega
    rw [List.map_cons, List.cons_append, atoiLoop, strchr_digitByte d (hlt d List.mem_cons_self)]
    dsimp only
    rw [hword, ih _ fun x hx => hlt x (List.mem_cons_of_mem _ hx)]
    rfl

theorem skipBlanks_append {blanks s : List UInt8} (hb : ∀ c ∈ blanks, c = byte ' ' ∨ c = byte '\t')
    (hs : s.headD 0 ≠ byte ' ' ∧ s.headD 0 ≠ byte '\t') : skipBlanks (blanks ++ s) = s := by
  induction blanks with
  | nil =>
    cases s with
    | nil => rfl
    | cons c s => exact if_neg fun h => h.elim hs.1 hs.2
  | cons c blanks ih =>
    rw [List.cons_append, skipBlanks, if_pos (hb c List.mem_cons_self)]
    exact ih fun c hc => hb c (List.mem_cons_of_mem _ hc)

theorem wordToInt_mod (n : Nat) : wordToInt (n % 2 ^ 32) = toInt n := by
  obtain ⟨q, hq⟩ := toInt_eq_sub n
  have hrange := toInt_range n
  rw [wordToInt]
  split <;> omega

theorem wordToInt_sub (n : Nat) : wordToInt (Word.sub 0 (n % 2 ^ 32)) = toInt (-n) := by
  obtain ⟨q, hq⟩ := toInt_eq_sub (-n)
  have hrange := toInt_range (-n)
  rw [wordToInt, Word.sub]
  split <;> omega

/-! ## Texts of numbers -/

/-- The sign in front of a number. -/
inductive NumSign
  | none | minus | plus
  deriving DecidableEq, Repr

/-- The text of a sign. -/
def NumSign.text : NumSign → List UInt8
  | .none => []
  | .minus => [byte '-']
  | .plus => [byte '+']

/-- A number with a sign. -/
def NumSign.apply : NumSign → Nat → Int
  | .minus, n => -n
  | _, n => n

/-- **`atoi` reads a number**: the value of the digits with the sign, as far as it fits into an
`int`. -/
theorem atoi_eq {s : CString} {blanks rest : List UInt8} {sign : NumSign} {ds : List Nat}
    (hs : s.bytes = blanks ++ (sign.text ++ (ds.map digitByte ++ rest)))
    (hblanks : ∀ c ∈ blanks, c = byte ' ' ∨ c = byte '\t') (hne : ds ≠ []) (hds : ∀ d ∈ ds, d < 10)
    (hrest : isDigit (rest.headD 0) = false) :
    atoi s = toInt (sign.apply (positional 10 ds)) := by
  obtain ⟨d, ds', rfl⟩ := List.exists_cons_of_ne_nil hne
  have hnul : 0 ∉ rest := fun hmem => s.noNul (by rw [hs]; simp [hmem])
  have hloop := atoiLoop_digits hnul hrest (d :: ds') 0 hds
  have hhead : ∀ d < 10, digitByte d ≠ byte ' ' ∧ digitByte d ≠ byte '\t' ∧ digitByte d ≠ byte '-' ∧
      digitByte d ≠ byte '+' := by decide
  obtain ⟨hspace, htab, hminus, hplus⟩ := hhead d (hds d List.mem_cons_self)
  have hskip : skipBlanks s.bytes = sign.text ++ ((d :: ds').map digitByte ++ rest) := by
    rw [hs]
    refine skipBlanks_append hblanks ?_
    cases sign with
    | none => exact ⟨hspace, htab⟩
    | minus => exact show byte '-' ≠ byte ' ' ∧ byte '-' ≠ byte '\t' by decide
    | plus => exact show byte '+' ≠ byte ' ' ∧ byte '+' ≠ byte '\t' by decide
  rw [Nat.zero_mod] at hloop
  rw [atoi, hskip]
  cases sign with
  | none =>
    have hsame : ¬ (digitByte d = byte '-' ∨ digitByte d = byte '+') := not_or.2 ⟨hminus, hplus⟩
    simp only [NumSign.text, List.nil_append, List.map_cons, List.cons_append, List.headD_cons,
      if_neg hsame, if_neg hminus]
    rw [← List.cons_append, ← List.map_cons, hloop, wordToInt_mod]
    rfl
  | minus =>
    simp only [NumSign.text, List.singleton_append, List.headD_cons, true_or, if_true,
      List.tail_cons, hloop, wordToInt_sub]
    rfl
  | plus =>
    have hsign : byte '+' ≠ byte '-' := by decide
    simp only [NumSign.text, List.singleton_append, List.headD_cons, or_true, if_true,
      List.tail_cons, if_neg hsign, hloop, wordToInt_mod]
    rfl

/-! ## The text that `snprintf` writes -/

/-- The format `%d`. -/
def decimalFormat : CString := ⟨['%', 'd'].map byte, by decide, by decide⟩

/-- The directive in it. -/
def decimalDirective : IntDirective := ⟨.none, none, .int, .d⟩

/-- The text of an `int`: a sign if it is negative, and the digits of its absolute value. -/
def intText (v : Int) : List UInt8 :=
  (if v < 0 then NumSign.minus else .none).text ++ numberText v.natAbs

theorem length_intText_le (v : BitVec 32) : (intText v.toInt).length ≤ 11 := by
  have hlt : v.toInt.natAbs < 10 ^ 10 := by
    have hlo := v.le_toInt
    have hhi := v.toInt_lt
    norm_num at hlo hhi ⊢
    omega
  have hdigits := numeral_length_le (by decide) (by decide) hlt
  have hsign : (if v.toInt < 0 then NumSign.minus else .none).text.length ≤ 1 := by
    split <;> decide
  rw [intText, numberText, List.length_append, List.length_map]
  omega

theorem vsnprintfmt_decimal {F : Type} (ap : VaList F) :
    ∃ cs, vsnprintfmt record decimalFormat ap [] = .ok cs ∧
      cs.map UInt8.ofInt = intText (ap 0).word.toInt := by
  have hfmt : decimalFormat.bytes = decimalDirective.text := rfl
  have hvalue : decimalDirective.value (ap 0) = (ap 0).word.toInt := rfl
  have hfill : decimalDirective.snFill (ap 0) = 0 := by
    have hwidth : toInt decimalDirective.fieldWidth = 0 := toInt_eq (by decide) (by decide)
    rw [IntDirective.snFill, hwidth]
    omega
  have hdigits : (decimalDirective.digits (ap 0)).map UInt8.ofInt =
      numberText (ap 0).word.toInt.natAbs := by
    have hchar : ∀ d < 10, UInt8.ofInt (digitChar d) = digitByte d := by decide
    rw [IntDirective.digits, List.map_map, hvalue, numberText]
    exact List.map_congr_left fun d hd => hchar d (digit_lt (by decide) hd)
  have hsign : (decimalDirective.sign (ap 0)).map UInt8.ofInt =
      (if (ap 0).word.toInt < 0 then NumSign.minus else .none).text := by
    rw [IntDirective.sign, hvalue]
    split <;> rfl
  refine ⟨_, IntDirective.vsnprintfmt_int hfmt ap, ?_⟩
  rw [hfill, List.map_append, hsign, intText, ← hdigits]
  rfl

/-- `snprintf` with `%d` leaves the text of the `int` in a buffer of twelve bytes. -/
theorem snprintf_decimal {F : Type} (ap : VaList F) (mem : ByteMem) {buf n : Nat} (hbuf : buf ≠ 0)
    (hn : 12 ≤ n) (hfit : buf + n ≤ 2 ^ 32) :
    ∃ mem' s, snprintf mem buf n decimalFormat ap = .ok (s.strlen, mem') ∧ StringAt mem' buf s ∧
      s.bytes = intText (ap 0).word.toInt := by
  obtain ⟨cs, hcs, htext⟩ := vsnprintfmt_decimal ap
  obtain ⟨mem', hret, htrunc⟩ := vsnprintf_eq hcs hbuf (by omega) hfit mem
  have hle := length_intText_le (ap 0).word
  have hlen : cs.length = (intText (ap 0).word.toInt).length := by rw [← htext, List.length_map]
  have hmin : min cs.length (n - 1) = cs.length := by omega
  have hnul : 0 ∉ intText (ap 0).word.toInt := by
    have hdigit : ∀ d < 10, digitByte d ≠ 0 := by decide
    rw [intText, numberText, List.mem_append, List.mem_map]
    rintro (hmem | ⟨d, hd, hzero⟩)
    · split at hmem
      · exact absurd hmem (by decide)
      · exact absurd hmem (by decide)
    · exact hdigit d (digit_lt (by decide) hd) hzero
  refine ⟨mem', ⟨intText (ap 0).word.toInt, hnul, by omega⟩, ?_, ⟨fun i hi => ?_, ?_⟩, rfl⟩
  · rw [toInt_eq, hlen] at hret
    exact hret
  · rw [htrunc.chars i (by rw [hmin, hlen]; exact hi)]
    dsimp only
    rw [← htext]
    exact (List.getD_map ..).symm
  · have hnul' := htrunc.nul
    rwa [hmin, hlen] at hnul'

/-- **Printing and parsing are inverse.**  For every `int`, `atoi` returns it when it is applied to
the string that `snprintf` leaves in the buffer for `%d`.  And `atoi` returns the value modulo `2 ^
32`, as an `int`, of every text of blanks, a sign and digits, whatever follows if it is no digit. -/
theorem atoi_inverse :
    (∀ {F : Type} (ap : VaList F) (mem : ByteMem) (buf n : Nat), buf ≠ 0 → 12 ≤ n →
      buf + n ≤ 2 ^ 32 → ∃ mem' s, snprintf mem buf n decimalFormat ap = .ok (s.strlen, mem') ∧
        StringAt mem' buf s ∧ atoi s = (ap 0).word.toInt) ∧
    ∀ (s : CString) (blanks rest : List UInt8) (sign : NumSign) (ds : List Nat),
      s.bytes = blanks ++ (sign.text ++ (ds.map digitByte ++ rest)) →
      (∀ c ∈ blanks, c = byte ' ' ∨ c = byte '\t') → ds ≠ [] → (∀ d ∈ ds, d < 10) →
      isDigit (rest.headD 0) = false → atoi s = toInt (sign.apply (positional 10 ds)) := by
  refine ⟨fun ap mem buf n hbuf hn hfit => ?_, fun s blanks rest sign ds hs hb hne hds hrest =>
    atoi_eq hs hb hne hds hrest⟩
  obtain ⟨mem', s, hret, hat, hbytes⟩ := snprintf_decimal ap mem hbuf hn hfit
  refine ⟨mem', s, hret, hat, ?_⟩
  have hs : s.bytes = [] ++ ((if (ap 0).word.toInt < 0 then NumSign.minus else .none).text ++
      ((numeral 10 (ap 0).word.toInt.natAbs).map digitByte ++ [])) := by
    rw [List.nil_append, List.append_nil]
    exact hbytes
  have hne : numeral 10 (ap 0).word.toInt.natAbs ≠ [] :=
    List.ne_nil_of_length_pos (numeral_length_pos _ _)
  have hvalue : (if (ap 0).word.toInt < 0 then NumSign.minus else .none).apply
      (ap 0).word.toInt.natAbs = (ap 0).word.toInt := by
    split
    · show -((ap 0).word.toInt.natAbs : Int) = _
      omega
    · show ((ap 0).word.toInt.natAbs : Int) = _
      omega
  rw [atoi_eq hs (fun c hc => absurd hc List.not_mem_nil) hne
      (fun d hd => digit_lt (by decide) hd) rfl,
    positional_numeral (by decide), hvalue]
  exact toInt_eq (BitVec.le_toInt _) BitVec.toInt_lt

/-- The least `int`, and a number that does not fit. -/
theorem atoi_inverse_least :
    (∃ mem' s, snprintf (fun _ => 0) 4096 12 decimalFormat
        (fun _ => (⟨0x80000000, 0, none, ()⟩ : Arg Unit)) = .ok (Key.strlen s, mem') ∧
      StringAt mem' 4096 s ∧ atoi s = -2147483648) ∧
    atoi ⟨[' ', '+', '4', '2', '9', '4', '9', '6', '7', '2', '9', '7', 'x'].map byte, by decide,
      by decide⟩ = 1 := by
  refine ⟨?_, ?_⟩
  · exact atoi_inverse.1 (fun _ => (⟨0x80000000, 0, none, ()⟩ : Arg Unit)) (fun _ => 0) 4096 12
      (by decide) (by decide) (by decide)
  · exact (atoi_inverse.2 _ [byte ' '] [byte 'x'] .plus [4, 2, 9, 4, 9, 6, 7, 2, 9, 7] rfl
      (by decide +kernel) (by decide) (by decide +kernel) (by decide)).trans (by decide +kernel)

end JinxOS
