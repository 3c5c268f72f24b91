import JinxOS.Console.Console
import JinxOS.Klib.Format
import Mathlib.Data.List.Induction

/-!
# The keyboard

The code of `hw/kbd.c`.  The handler gets one byte of a scan code: a prefix `0xE0`, a make code, or
a break code, which is the make code with the highest bit set.  It keeps the state of the modifiers,
of the locks and of the prefix in the bits of one static variable.

The other side is the keyboard itself (`Keyboard`): which keys are down, and whether the last byte
was a prefix.  A key is a make code with or without the prefix, and each of the modifiers SHIFT, CTL
and ALT is two keys.  The two are compared byte by byte.

* `irqHandlerKdb_bit` — what one byte does to the bit of a modifier;
* `kbd_tracks_iff` — **the bits tell which modifiers are held down exactly if no key of a modifier
  is released while the other one is down**; the bit for the prefix is always right.
-/

namespace JinxOS

open Function (update update_of_ne)
open BitVec (getLsbD_or getLsbD_and getLsbD_not getLsbD_xor)

/-! ## Tables -/

/-- `SHIFT`. -/
def kbdSHIFT : BitVec 32 := 0x01

/-- `CTL`. -/
def kbdCTL : BitVec 32 := 0x02

/-- `ALT`. -/
def kbdALT : BitVec 32 := 0x04

/-- `CAPSLOCK`. -/
def kbdCAPSLOCK : BitVec 32 := 0x08

/-- `NUMLOCK`. -/
def kbdNUMLOCK : BitVec 32 := 0x10

/-- `SCROLLLOCK`. -/
def kbdSCROLLLOCK : BitVec 32 := 0x20

/-- `ESC`. -/
def kbdESC : BitVec 32 := 0x40

/-- `shiftcode`. -/
def shiftcode (data : UInt8) : BitVec 32 :=
  match data with
  | 0x1D => kbdCTL
  | 0x2A => kbdSHIFT
  | 0x36 => kbdSHIFT
  | 0x38 => kbdALT
  | 0x9D => kbdCTL
  | 0xB8 => kbdALT
  | _ => 0

/-- `togglecode`. -/
def togglecode (data : UInt8) : BitVec 32 :=
  match data with
  | 0x3A => kbdCAPSLOCK
  | 0x45 => kbdNUMLOCK
  | 0x46 => kbdSCROLLLOCK
  | _ => 0

/-- `NO`, in the tables of characters. -/
def no : UInt8 := 0

/-- The entries of `normalmap` and `shiftmap` that have a `0xE0` before them: `KEY_HOME` to
`KEY_DEL`, the second newline and the second slash. -/
def extendedmap (data : UInt8) : UInt8 :=
  match data with
  | 0xC7 => 0xE0
  | 0x9C => byte '\n'
  | 0xB5 => byte '/'
  | 0xC8 => 0xE2
  | 0xC9 => 0xE6
  | 0xCB => 0xE4
  | 0xCD => 0xE5
  | 0xCF => 0xE1
  | 0xD0 => 0xE3
  | 0xD1 => 0xE7
  | 0xD2 => 0xE8
  | 0xD3 => 0xE9
  | _ => no

/-- The first 88 entries of `normalmap`.  A quote is `0x27`, a backquote `0x60`, a backslash `0x5C`.
-/
def normalKeys : List UInt8 := [
  no, 0x1B, byte '1', byte '2', byte '3', byte '4', byte '5', byte '6',
  byte '7', byte '8', byte '9', byte '0', byte '-', byte '=', 0x08, byte '\t',
  byte 'q', byte 'w', byte 'e', byte 'r', byte 't', byte 'y', byte 'u', byte 'i',
  byte 'o', byte 'p', byte '[', byte ']', byte '\n', no, byte 'a', byte 's',
  byte 'd', byte 'f', byte 'g', byte 'h', byte 'j', byte 'k', byte 'l', byte ';',
  0x27, 0x60, no, 0x5C, byte 'z', byte 'x', byte 'c', byte 'v',
  byte 'b', byte 'n', byte 'm', byte ',', byte '.', byte '/', no, byte '*',
  no, byte ' ', no, no, no, no, no, no,
  no, no, no, no, no, no, no, byte '7',
  byte '8', byte '9', byte '-', byte '4', byte '5', byte '6', byte '+', byte '1',
  byte '2', byte '3', byte '0', byte '.', no, no, no, no]

/-- The first 88 entries of `shiftmap`.  Braces are `0x7B` and `0x7D`, a double quote is `0x22`. -/
def shiftKeys : List UInt8 := [
  no, 0x1B, byte '!', byte '@', byte '#', byte '$', byte '%', byte '^',
  byte '&', byte '*', byte '(', byte ')', byte '_', byte '+', 0x08, byte '\t',
  byte 'Q', byte 'W', byte 'E', byte 'R', byte 'T', byte 'Y', byte 'U', byte 'I',
  byte 'O', byte 'P', 0x7B, 0x7D, byte '\n', no, byte 'A', byte 'S',
  byte 'D', byte 'F', byte 'G', byte 'H', byte 'J', byte 'K', byte 'L', byte ':',
  0x22, byte '~', no, byte '|', byte 'Z', byte 'X', byte 'C', byte 'V',
  byte 'B', byte 'N', byte 'M', byte '<', byte '>', byte '?', no, byte '*',
  no, byte ' ', no, no, no, no, no, no,
  no, no, no, no, no, no, no, byte '7',
  byte '8', byte '9', byte '-', byte '4', byte '5', byte '6', byte '+', byte '1',
  byte '2', byte '3', byte '0', byte '.', no, no, no, no]

/-- `C(x)`. -/
def ctl (c : Char) : UInt8 := byte c - byte '@'

/-- The first 56 entries of `ctlmap`. -/
def ctlKeys : List UInt8 := [
  no, no, no, no, no, no, no, no,
  no, no, no, no, no, no, no, no,
  ctl 'Q', ctl 'W', ctl 'E', ctl 'R', ctl 'T', ctl 'Y', ctl 'U', ctl 'I',
  ctl 'O', ctl 'P', no, no, byte '\r', no, ctl 'A', ctl 'S',
  ctl 'D', ctl 'F', ctl 'G', ctl 'H', ctl 'J', ctl 'K', ctl 'L', no,
  no, no, no, ctl '\\', ctl 'Z', ctl 'X', ctl 'C', ctl 'V',
  ctl 'B', ctl 'N', ctl 'M', no, no, ctl '/', no, no]

/-- `normalmap`. -/
def normalmap (data : UInt8) : UInt8 := normalKeys.getD data.toNat (extendedmap data)

/-- `shiftmap`. -/
def shiftmap (data : UInt8) : UInt8 := shiftKeys.getD data.toNat (extendedmap data)

/-- `ctlmap`, in which `KEY_HOME` is at another place, the slash is a control character, and there
is no second newline. -/
def ctlmap (data : UInt8) : UInt8 :=
  ctlKeys.getD data.toNat
    (match data with
      | 0x97 => 0xE0
      | 0xB5 => ctl '/'
      | 0xC7 => no
      | 0x9C => no
      | data => extendedmap data)

/-- `charcode`. -/
def charcode (i : BitVec 32) : UInt8 → UInt8 :=
  match i.toNat with
  | 0 => normalmap
  | 1 => shiftmap
  | _ => ctlmap

/-! ## The handler -/

/-- The exchange of lower and upper case. -/
def capslock (c : UInt8) : UInt8 :=
  if byte 'a' ≤ c ∧ c ≤ byte 'z' then c + byte 'A' - byte 'a'
  else if byte 'A' ≤ c ∧ c ≤ byte 'Z' then c + byte 'a' - byte 'A'
  else c

/-- What the handler does: the static variable `shift` after it, the character that it stores in the
console's buffer, and whether it resets the machine. -/
structure KbdResult where
  shift : BitVec 32
  char : Option UInt8
  reset : Bool
  deriving DecidableEq, Repr

/-- `irq_handler_kdb`, for the byte that `inb(KBDIO)` returns. -/
def irqHandlerKdb (shift : BitVec 32) (data : UInt8) : KbdResult :=
  if data = 0xE0 then ⟨shift ||| kbdESC, none, false⟩
  else if data &&& 0x80 ≠ 0 then
    let reset := shift = 0x46 ∧ data = 0xD3
    let data := if shift &&& kbdESC ≠ 0 then data else data &&& 0x7F
    ⟨shift &&& ~~~(shiftcode data ||| kbdESC), none, reset⟩
  else
    let (data, shift) :=
      if shift &&& kbdESC ≠ 0 then (data ||| 0x80, shift &&& ~~~kbdESC) else (data, shift)
    let shift := shift ||| shiftcode data
    let shift := shift ^^^ togglecode data
    let c := charcode (shift &&& (kbdCTL ||| kbdSHIFT)) data
    ⟨shift, some (if shift &&& kbdCAPSLOCK ≠ 0 then capslock c else c), false⟩

/-! ## The keyboard -/

/-- A key: does it send the prefix, and its make code. -/
abbrev ScanKey := Bool × UInt8

/-- The keyboard: the keys that are down, and whether the last byte was a prefix. -/
structure Keyboard where
  down : ScanKey → Bool
  pending : Bool

/-- The keyboard with no key down. -/
def Keyboard.init : Keyboard := ⟨fun _ => false, false⟩

/-- The key that a byte is about. -/
def Keyboard.key (kb : Keyboard) (data : UInt8) : ScanKey := (kb.pending, data &&& 0x7F)

/-- The keyboard after it has sent a byte: a prefix, or that a key goes down or up. -/
def Keyboard.send (kb : Keyboard) (data : UInt8) : Keyboard :=
  if data = 0xE0 then { kb with pending := true }
  else ⟨update kb.down (kb.key data) (data &&& 0x80 = 0), false⟩

/-- The modifiers. -/
inductive Modifier
  | shift | ctl | alt
  deriving DecidableEq, Repr

/-- The keys of a modifier: left and right. -/
def Modifier.keys : Modifier → List ScanKey
  | .shift => [(false, 0x2A), (false, 0x36)]
  | .ctl => [(false, 0x1D), (true, 0x1D)]
  | .alt => [(false, 0x38), (true, 0x38)]

/-- The place of its bit. -/
def Modifier.bit : Modifier → Nat
  | .shift => 0
  | .ctl => 1
  | .alt => 2

/-- Is a key of the modifier down? -/
def Keyboard.holds (kb : Keyboard) (m : Modifier) : Bool := m.keys.any kb.down

/-- **The bits are right**: those of the modifiers and that of the prefix. -/
structure Tracks (shift : BitVec 32) (kb : Keyboard) : Prop where
  modifiers : ∀ m : Modifier, shift.getLsbD m.bit = kb.holds m
  esc : shift.getLsbD 6 = kb.pending

/-- A key of a modifier is released while another one of the same modifier is down. -/
def Keyboard.ReleasesOne (kb : Keyboard) (data : UInt8) : Prop :=
  data ≠ 0xE0 ∧ data &&& 0x80 ≠ 0 ∧ ∃ m : Modifier, kb.key data ∈ m.keys ∧
    ∃ k ∈ m.keys, k ≠ kb.key data ∧ kb.down k = true

/-- `shift` after a sequence of bytes. -/
def kbdShift (bytes : List UInt8) : BitVec 32 :=
  bytes.foldl (fun shift data => (irqHandlerKdb shift data).shift) 0

/-- The keyboard after it has sent a sequence of bytes. -/
def keyboardAfter (bytes : List UInt8) : Keyboard := bytes.foldl Keyboard.send .init

/-! ## One byte -/

theorem forall_uint8 {P : UInt8 → Prop} (h : ∀ n < 256, P (UInt8.ofNat n)) (b : UInt8) : P b := by
  have hb := h b.toNat b.toNat_lt
  rwa [UInt8.ofNat_toNat] at hb

theorem shiftcode_bit (m : Modifier) (pending : Bool) (data : UInt8) :
    (shiftcode (if pending then data ||| 0x80 else data &&& 0x7F)).getLsbD m.bit =
      decide ((pending, data &&& 0x7F) ∈ m.keys) := by
  refine forall_uint8 (P := fun data =>
    (shiftcode (if pending then data ||| 0x80 else data &&& 0x7F)).getLsbD m.bit =
      decide ((pending, data &&& 0x7F) ∈ m.keys)) ?_ data
  cases m <;> cases pending <;> decide +kernel

/-- No other table has the bits of the modifiers, and none has the bit of the prefix. -/
theorem table_bits (data : UInt8) : (shiftcode data).getLsbD 6 = false ∧
    (togglecode data).getLsbD 6 = false ∧
      ∀ m : Modifier, (togglecode data).getLsbD m.bit = false := by
  refine forall_uint8 (P := fun data => (shiftcode data).getLsbD 6 = false ∧
    (togglecode data).getLsbD 6 = false ∧
      ∀ m : Modifier, (togglecode data).getLsbD m.bit = false)
    (fun n hn => ⟨?_, ?_, fun m => ?_⟩) data
  · revert n
    decide +kernel
  · revert n
    decide +kernel
  · revert n
    cases m <;> decide +kernel

theorem high_bit (data : UInt8) : (data &&& 0x80 ≠ 0 → data ||| 0x80 = data) ∧
    (data &&& 0x80 = 0 → data &&& 0x7F = data) :=
  forall_uint8 (P := fun data => (data &&& 0x80 ≠ 0 → data ||| 0x80 = data) ∧
    (data &&& 0x80 = 0 → data &&& 0x7F = data)) (by decide +kernel) data

theorem and_esc_ne_zero (shift : BitVec 32) : shift &&& kbdESC ≠ 0 ↔ shift.getLsbD 6 = true := by
  have hesc : kbdESC = BitVec.twoPow 32 6 := by decide
  rw [hesc, Ne, BitVec.and_twoPow]
  split
  · rename_i hbit
    exact iff_of_true (by decide) hbit
  · rename_i hbit
    exact iff_of_false (fun h => h rfl) hbit

theorem esc_bits (m : Modifier) : kbdESC.getLsbD m.bit = false ∧ kbdESC.getLsbD 6 = true := by
  cases m <;> decide

theorem Modifier.bit_lt (m : Modifier) : m.bit < 32 := by
  cases m <;> decide

section
variable {shift : BitVec 32} {kb : Keyboard} (hesc : shift.getLsbD 6 = kb.pending)
include hesc

theorem irqHandlerKdb_shift (data : UInt8) : (irqHandlerKdb shift data).shift =
    if data = 0xE0 then shift ||| kbdESC
    else
      let code := shiftcode (if kb.pending then data ||| 0x80 else data &&& 0x7F)
      let toggle := togglecode (if kb.pending then data ||| 0x80 else data &&& 0x7F)
      if data &&& 0x80 ≠ 0 then shift &&& ~~~(code ||| kbdESC)
      else ((if kb.pending then shift &&& ~~~kbdESC else shift) ||| code) ^^^ toggle := by
  obtain ⟨hbreak, hmake⟩ := high_bit data
  rw [irqHandlerKdb]
  split
  · rfl
  · split
    · rename_i hhigh
      simp only [and_esc_ne_zero, hesc, hbreak hhigh]
    · rename_i hlow
      have hdata := hmake (not_not.1 hlow)
      simp only [and_esc_ne_zero, hesc, hdata]
      cases kb.pending <;> rfl

/-- **What a byte does to the bit of a modifier.** -/
theorem irqHandlerKdb_bit (data : UInt8) (m : Modifier) :
    (irqHandlerKdb shift data).shift.getLsbD m.bit =
      if data = 0xE0 then shift.getLsbD m.bit
      else if data &&& 0x80 ≠ 0 then shift.getLsbD m.bit && !decide (kb.key data ∈ m.keys)
      else shift.getLsbD m.bit || decide (kb.key data ∈ m.keys) := by
  obtain ⟨-, -, htoggle⟩ := table_bits (if kb.pending then data ||| 0x80 else data &&& 0x7F)
  rw [irqHandlerKdb_shift hesc]
  split
  · rw [getLsbD_or, (esc_bits m).1, Bool.or_false]
  · dsimp only
    split
    · rw [getLsbD_and, getLsbD_not, getLsbD_or, shiftcode_bit, (esc_bits m).1,
        Bool.or_false, decide_eq_true m.bit_lt, Bool.true_and, Keyboard.key]
    · have hkeep : (if kb.pending then shift &&& ~~~kbdESC else shift).getLsbD m.bit =
          shift.getLsbD m.bit := by
        split
        · rw [getLsbD_and, getLsbD_not, (esc_bits m).1, decide_eq_true m.bit_lt]
          exact Bool.and_true _
        · rfl
      rw [getLsbD_xor, getLsbD_or, hkeep, shiftcode_bit, htoggle m, Bool.xor_false,
        Keyboard.key]

theorem irqHandlerKdb_esc (data : UInt8) :
    (irqHandlerKdb shift data).shift.getLsbD 6 = (kb.send data).pending := by
  obtain ⟨hcode, htoggle, -⟩ := table_bits (if kb.pending then data ||| 0x80 else data &&& 0x7F)
  have hbit : kbdESC.getLsbD 6 = true := (esc_bits .shift).2
  rw [irqHandlerKdb_shift hesc, Keyboard.send]
  split
  · rw [getLsbD_or, hbit, Bool.or_true]
  · dsimp only
    split
    · rw [getLsbD_and, getLsbD_not, getLsbD_or, hbit, Bool.or_true]
      exact Bool.and_false _
    · rw [getLsbD_xor, getLsbD_or, hcode, htoggle, Bool.or_false, Bool.xor_false]
      split
      · rw [getLsbD_and, getLsbD_not, hbit]
        exact Bool.and_false _
      · rename_i hnot
        rw [hesc]
        exact Bool.eq_false_iff.2 hnot

end

theorem Modifier.keys_eq (m : Modifier) : ∃ a b, m.keys = [a, b] ∧ a ≠ b := by
  cases m <;> exact ⟨_, _, rfl, by decide⟩

theorem Keyboard.holds_send (kb : Keyboard) {data : UInt8} (hdata : data ≠ 0xE0) (m : Modifier) :
    (kb.send data).holds m =
      m.keys.any (update kb.down (kb.key data) (decide (data &&& 0x80 = 0))) := by
  rw [Keyboard.send, if_neg hdata]
  rfl

/-- **A byte keeps the bits right**, unless it releases one of two keys that are down. -/
theorem Tracks.send {shift : BitVec 32} {kb : Keyboard} (h : Tracks shift kb) {data : UInt8}
    (hclean : ¬ kb.ReleasesOne data) : Tracks (irqHandlerKdb shift data).shift (kb.send data) := by
  refine ⟨fun m => ?_, irqHandlerKdb_esc h.esc data⟩
  rw [irqHandlerKdb_bit h.esc, h.modifiers]
  by_cases hlead : data = 0xE0
  · rw [if_pos hlead, Keyboard.send, if_pos hlead]
    rfl
  · obtain ⟨a, b, hkeys, hab⟩ := m.keys_eq
    rw [if_neg hlead, kb.holds_send hlead, Keyboard.holds, hkeys]
    -- the other key of the modifier is up when this one is released
    have hother {k : ScanKey} (hhigh : data &&& 0x80 ≠ 0) (hkey : kb.key data ∈ m.keys)
        (hk : k ∈ m.keys) (hne : k ≠ kb.key data) : kb.down k = false :=
      Bool.eq_false_iff.2 fun hdown => hclean ⟨hlead, hhigh, m, hkey, k, hk, hne, hdown⟩
    rw [hkeys] at hother
    by_cases ha : kb.key data = a
    · subst ha
      by_cases hhigh : data &&& 0x80 = 0
      · simp [hhigh]
      · simp [hhigh, update_of_ne hab.symm,
          hother hhigh List.mem_cons_self (List.mem_cons_of_mem _ List.mem_cons_self) hab.symm]
    · by_cases hb : kb.key data = b
      · subst hb
        by_cases hhigh : data &&& 0x80 = 0
        · simp [hhigh]
        · simp [hhigh, update_of_ne hab,
            hother hhigh (List.mem_cons_of_mem _ List.mem_cons_self) List.mem_cons_self hab]
      · simp [ha, hb, update_of_ne (Ne.symm ha), update_of_ne (Ne.symm hb)]

/-- The bit of a modifier is wrong after one of two keys that are down is released. -/
theorem not_tracks_of_releasesOne {shift : BitVec 32} {kb : Keyboard}
    (hesc : shift.getLsbD 6 = kb.pending) {data : UInt8} (h : kb.ReleasesOne data) :
    ¬ Tracks (irqHandlerKdb shift data).shift (kb.send data) := by
  obtain ⟨hlead, hhigh, m, hkey, k, hk, hne, hdown⟩ := h
  intro htracks
  have hbit := htracks.modifiers m
  rw [irqHandlerKdb_bit hesc, if_neg hlead, if_pos hhigh, decide_eq_true hkey, Bool.not_true,
    Bool.and_false, kb.holds_send hlead] at hbit
  have hheld := (List.any_eq_false.1 hbit.symm) k hk
  rw [update_of_ne hne] at hheld
  exact hheld hdown

/-! ## Sequences of bytes -/

theorem kbdShift_concat (p : List UInt8) (data : UInt8) :
    kbdShift (p ++ [data]) = (irqHandlerKdb (kbdShift p) data).shift := by
  rw [kbdShift, List.foldl_append]
  rfl

theorem keyboardAfter_concat (p : List UInt8) (data : UInt8) :
    keyboardAfter (p ++ [data]) = (keyboardAfter p).send data := by
  rw [keyboardAfter, List.foldl_append]
  rfl

theorem kbdShift_esc (p : List UInt8) : (kbdShift p).getLsbD 6 = (keyboardAfter p).pending := by
  induction p using List.reverseRecOn with
  | nil => rfl
  | append_singleton p data ih =>
    rw [kbdShift_concat, keyboardAfter_concat]
    exact irqHandlerKdb_esc ih data

theorem tracks_init : Tracks 0 .init := by
  refine ⟨fun m => ?_, rfl⟩
  cases m <;> rfl

/-- **The modifiers and the physical keys.**  For every sequence of bytes that a keyboard sends,
beginning with no key down: after each byte, the bit of the prefix tells whether that byte was a
prefix; and the bits of all modifiers are right after each byte exactly if no byte releases a key of
a modifier while the other key of that modifier is down. -/
theorem kbd_tracks_iff (bytes : List UInt8) :
    (∀ p, p <+: bytes → (kbdShift p).getLsbD 6 = (keyboardAfter p).pending) ∧
      ((∀ p, p <+: bytes → Tracks (kbdShift p) (keyboardAfter p)) ↔
        ∀ p data, p ++ [data] <+: bytes → ¬ (keyboardAfter p).ReleasesOne data) := by
  refine ⟨fun p _ => kbdShift_esc p, fun htracks p data hp hrel => ?_, fun hclean p => ?_⟩
  · refine not_tracks_of_releasesOne (kbdShift_esc p) hrel ?_
    rw [← kbdShift_concat, ← keyboardAfter_concat]
    exact htracks _ hp
  · induction p using List.reverseRecOn with
    | nil => exact fun _ => tracks_init
    | append_singleton p data ih =>
      intro hp
      rw [kbdShift_concat, keyboardAfter_concat]
      exact (ih ((List.prefix_append p [data]).trans hp)).send (hclean p data hp)

/-- **Both SHIFT keys pressed, and the left one released**: the right one is down, but the bit is
not set. -/
theorem not_tracks_shift :
    (kbdShift [0x2A, 0x36, 0xAA]).getLsbD 0 = false ∧
      (keyboardAfter [0x2A, 0x36, 0xAA]).down (false, 0x36) = true ∧
      ¬ Tracks (kbdShift [0x2A, 0x36, 0xAA]) (keyboardAfter [0x2A, 0x36, 0xAA]) := by
  refine ⟨by decide, by decide, fun h => ?_⟩
  exact absurd (h.modifiers .shift) (by decide)

end JinxOS
