import JinxOS.Klib.Print

/-!
# What the scanner makes of the text of a directive

The lemmas here run the scanner symbolically over a directive.  A position in the format is given by
the characters that follow it, so that the lemmas do not depend on where the directive stands, and
how much fuel a run needs is forgotten: `Scans` says that some amount is enough, and
`Scans.reswitch` that it is then what the printers find.

The texts of widths are numerals.  `Scans.number` reads one: the `int` that the scanner computes is
the number that is written there, as far as it fits (`toInt`).  A width that is written as `0` is no
numeral to the scanner but the flag.
-/

namespace JinxOS

open Numeral

/-! ## Computing in an `int` -/

theorem toInt_toInt_mul_add (x y z : Int) : toInt (toInt x * y + z) = toInt (x * y + z) := by
  have hmul : toInt (toInt x * y) = toInt (x * y) := Int.bmod_mul_bmod
  rw [← toInt_toInt_add, hmul, toInt_toInt_add]

/-! ## Single steps -/

section
variable {F : Type} {zed : Bool} {fmt : CString} {ap : VaList F} {i k : Nat} {fl : Flags}
  {d : Directive} {c : UInt8} {l : List UInt8}

theorem readByte_drop (h : fmt.bytes.drop i = c :: l) : readByte fmt i = .ok c := by
  have hlt : i < fmt.strlen := by
    by_contra hge
    rw [List.drop_eq_nil_of_le (Nat.not_lt.1 hge)] at h
    cases h
  have hget : fmt.bytes.getD i 0 = c := by
    rw [List.drop_eq_getElem_cons hlt] at h
    rw [List.getD_eq_getElem _ _ hlt]
    exact (List.cons.inj h).1
  rw [readByte_eq hlt.le, byteAt, hget]

theorem drop_next (h : fmt.bytes.drop i = c :: l) : fmt.bytes.drop (i + 1) = l := by
  rw [← List.drop_drop, h]
  rfl

theorem drop_skip {l' : List UInt8} (h : fmt.bytes.drop i = l ++ l') :
    fmt.bytes.drop (i + l.length) = l' := by
  rw [← List.drop_drop, h]
  exact List.drop_left

/-- With enough fuel, the scanner comes from index `i` to the directive `d`. -/
def Scans (zed : Bool) (fmt : CString) (ap : VaList F) (i k : Nat) (fl : Flags) (d : Directive) :
    Prop :=
  ∃ fuel, reswitch zed fmt ap fuel i k fl = .ok d

theorem reswitch_mono : ∀ {fuel i k : Nat} {fl : Flags}, reswitch zed fmt ap fuel i k fl = .ok d →
    ∀ m, reswitch zed fmt ap (fuel + m) i k fl = .ok d := by
  intro fuel
  induction fuel with
  | zero =>
    intro i k fl h
    cases h
  | succ fuel ih =>
    intro i k fl h m
    rw [Nat.add_right_comm]
    simp only [reswitch, Except.bind, bind] at h ⊢
    cases hread : readByte fmt i with
    | error e =>
      rw [hread] at h
      cases h
    | ok ch =>
      simp only [hread] at h ⊢
      cases hlabel : label ch with
      | minus | zero | star | dot | hash | ell =>
        simp only [hlabel] at h
        exact ih h m
      | zed =>
        simp only [hlabel] at h
        cases zed with
        | true => exact ih h m
        | false => exact h
      | digit =>
        simp only [hlabel] at h
        cases hscan : scanDigits fmt (fmt.strlen + 2) (i + 1) 0 ch with
        | error e =>
          simp only [hscan] at h
          cases h
        | ok p =>
          simp only [hscan] at h ⊢
          exact ih h m
      | chr | str | bin | dec | uns | oct | ptr | hex | flt | percent | other =>
        simp only [hlabel] at h
        exact h

theorem Scans.reswitch (h : Scans zed fmt ap i k fl d) (hi : i ≤ fmt.strlen) :
    reswitch zed fmt ap (fmt.strlen + 2) i k fl = .ok d := by
  obtain ⟨fuel, hd⟩ := h
  obtain ⟨d', hd', -⟩ := reswitch_reached zed ap (fmt.strlen + 2) i k fl hi (by omega)
  have hboth := reswitch_mono hd (fmt.strlen + 2)
  rw [Nat.add_comm, reswitch_mono hd' fuel] at hboth
  rw [hd', hboth]

theorem Scans.minus (h : fmt.bytes.drop i = byte '-' :: l)
    (hs : Scans zed fmt ap (i + 1) k { fl with padc := byte '-' } d) :
    Scans zed fmt ap i k fl d := by
  obtain ⟨fuel, hd⟩ := hs
  exact ⟨fuel + 1, by rw [JinxOS.reswitch, readByte_drop h]; exact hd⟩

theorem Scans.zero (h : fmt.bytes.drop i = byte '0' :: l)
    (hs : Scans zed fmt ap (i + 1) k { fl with padc := byte '0' } d) :
    Scans zed fmt ap i k fl d := by
  obtain ⟨fuel, hd⟩ := hs
  exact ⟨fuel + 1, by rw [JinxOS.reswitch, readByte_drop h]; exact hd⟩

theorem Scans.dot (h : fmt.bytes.drop i = byte '.' :: l)
    (hs : Scans zed fmt ap (i + 1) k { fl with width := if fl.width < 0 then 0 else fl.width } d) :
    Scans zed fmt ap i k fl d := by
  obtain ⟨fuel, hd⟩ := hs
  exact ⟨fuel + 1, by rw [JinxOS.reswitch, readByte_drop h]; exact hd⟩

theorem Scans.ell (h : fmt.bytes.drop i = byte 'l' :: l)
    (hs : Scans zed fmt ap (i + 1) k { fl with lflag := toInt (fl.lflag + 1) } d) :
    Scans zed fmt ap i k fl d := by
  obtain ⟨fuel, hd⟩ := hs
  exact ⟨fuel + 1, by rw [JinxOS.reswitch, readByte_drop h]; exact hd⟩

theorem Scans.stop (h : fmt.bytes.drop i = c :: l) (hc : isFlag zed c = false) :
    Scans zed fmt ap i k fl ⟨c, i + 1, k, fl⟩ := by
  refine ⟨1, ?_⟩
  simp only [JinxOS.reswitch, readByte_drop h, Except.bind, bind]
  rw [isFlag] at hc
  cases hlabel : label c with
  | minus | zero | digit | star | dot | hash | ell =>
    rw [hlabel] at hc
    cases hc
  | zed =>
    rw [hlabel] at hc
    dsimp only at hc ⊢
    rw [hc]
    rfl
  | chr | str | bin | dec | uns | oct | ptr | hex | flt | percent | other => rfl

/-! ## Numbers -/

theorem scanDigits_drop (hc : isDigit c = false) : ∀ (ds : List Nat) (fuel i n e : Nat),
    (∀ x ∈ e :: ds, x < 10) → fmt.bytes.drop i = ds.map digitByte ++ c :: l → ds.length < fuel →
    scanDigits fmt fuel i (toInt n) (digitByte e) =
      .ok (i + ds.length, toInt ((e :: ds).foldl (fun v x => v * 10 + x) n : Nat)) := by
  intro ds
  induction ds with
  | nil =>
    intro fuel i n e hlt hdrop hfuel
    obtain ⟨fuel, rfl⟩ := Nat.exists_eq_add_of_lt hfuel
    have hvalue := digitByte_value e (hlt e List.mem_cons_self)
    simp only [scanDigits, readByte_drop hdrop, Except.bind, bind, hc, Bool.false_eq_true, if_false,
      List.length_nil, Nat.add_zero, List.foldl_cons, List.foldl_nil]
    rw [Int.add_sub_assoc, hvalue, toInt_toInt_mul_add]
    push_cast
    rfl
  | cons e' ds ih =>
    intro fuel i n e hlt hdrop hfuel
    obtain ⟨fuel, rfl⟩ := Nat.exists_eq_succ_of_ne_zero (Nat.ne_zero_of_lt hfuel)
    have hvalue := digitByte_value e (hlt e List.mem_cons_self)
    have hdigit := isDigit_digitByte e' (hlt e' (List.mem_cons_of_mem _ List.mem_cons_self))
    have hnext := ih fuel (i + 1) (n * 10 + e) e' (fun x hx => hlt x (List.mem_cons_of_mem _ hx))
      (drop_next hdrop) (Nat.lt_of_succ_lt_succ hfuel)
    simp only [scanDigits, readByte_drop hdrop, Except.bind, bind, hdigit, if_true]
    rw [Int.add_sub_assoc, hvalue, toInt_toInt_mul_add]
    push_cast at hnext
    rw [hnext, List.length_cons, Nat.add_right_comm, Nat.add_assoc]
    rfl

/-- **A positive number in the format** is read as its value. -/
theorem Scans.number {n : Nat} (hn : 0 < n) (hc : isDigit c = false)
    (h : fmt.bytes.drop i = (numeral 10 n).map digitByte ++ c :: l)
    (hs : Scans zed fmt ap (i + (numeral 10 n).length) k (fl.processPrecision (toInt n)) d) :
    Scans zed fmt ap i k fl d := by
  obtain ⟨fuel, hd⟩ := hs
  obtain ⟨e, ds, hnum, he⟩ := numeral_eq_cons hn
  have hvalue : (e :: ds).foldl (fun v x => v * 10 + x) 0 = n := by
    rw [← hnum]
    exact positional_numeral (by decide)
  have hlt : ∀ x ∈ e :: ds, x < 10 := fun x hx => digit_lt (by decide) (hnum ▸ hx)
  rw [hnum] at h hd
  have hlen : ds.length < fmt.strlen + 2 := by
    have hle : (fmt.bytes.drop i).length ≤ fmt.strlen := by
      rw [List.length_drop]
      exact Nat.sub_le _ _
    rw [h, List.length_append, List.length_map, List.length_cons] at hle
    omega
  have hscan := scanDigits_drop hc ds (fmt.strlen + 2) (i + 1) 0 e hlt (drop_next h) hlen
  rw [hvalue] at hscan
  have hlabel : label (digitByte e) = .digit := by
    rw [label_digitByte e (hlt e List.mem_cons_self), if_neg he]
  refine ⟨fuel + 1, ?_⟩
  rw [JinxOS.reswitch, readByte_drop h]
  simp only [Except.bind, bind, hlabel]
  have hzero : toInt ((0 : Nat) : Int) = 0 := rfl
  have hindex : i + (e :: ds).length = i + 1 + ds.length := by
    rw [List.length_cons]
    omega
  rw [hzero] at hscan
  rw [hindex] at hd
  simp only [hscan]
  exact hd

theorem format_directive (pr : Printer F) {conv : Converted} (h : fmt.bytes = byte '%' :: l)
    (hs : Scans pr.zed fmt ap 1 0 .init d) (hconv : pr.convert fmt ap d = .ok conv)
    (hpos : conv.pos = fmt.strlen) : format pr record fmt ap [] = .ok conv.chars := by
  have hlen : 1 ≤ fmt.strlen := by
    rw [Key.strlen, h]
    exact Nat.succ_pos _
  have hend : readByte fmt fmt.strlen = .ok 0 := by
    rw [readByte_eq (Nat.le_refl _), (byteAt_eq_zero (Nat.le_refl _)).2 rfl]
  rw [format, formatLoop, readByte_drop (show fmt.bytes.drop 0 = byte '%' :: l from h)]
  simp only [Except.bind, bind, if_true, hs.reswitch hlen, hconv, hpos, formatLoop, hend]
  rw [if_neg (by decide), feed_record, List.nil_append]

end

end JinxOS
