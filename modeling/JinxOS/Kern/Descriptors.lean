import Mathlib.Data.BitVec

/-!
# Descriptors

The code of `kern/gdt.c` and `kern/idt.c` that fills in a segment descriptor or a gate, and the
calls of `init_irq`.  The structures have bit fields, and the processor sees the 64 bits that they
make up; `GdtEntry.raw` and `IdtEntry.raw` put the fields together in the order in which the
structures have them, with the first field in the low bits.  `segment` and `gate` take these bits
apart as the processor does.

* `segment_raw` and `gate_raw` — the processor finds the fields where they are;
* `base_fields`, `offset_fields`, `limit_pages` and `limit_bytes` — a word that was cut into fields
  is put together again;
* `descriptors_decode` — **what was passed is what the processor gets**, except for the type of a
  gate that is set by `idt_set_gate2`: this is a trap gate if any of the four bits for the type is
  set, and so the one that `init_irq` passes for an interrupt gate becomes a trap gate.

A trap gate leaves the interrupt flag as it is.  The handlers of `init_irq` run with interrupts off
all the same, as each of the stubs `irq0` to `irq15` in `kern/asm.S` begins with `cli`.
-/

namespace JinxOS

open Function (update update_self update_of_ne)
open BitVec (extractLsb'_eq_self extractLsb'_append_extractLsb'_eq_extractLsb' toNat_ofNat)

/-! ## The code -/

/-- `struct gdt_entry`. -/
structure GdtEntry where
  limitLo : BitVec 16
  baseLo : BitVec 16
  baseMd : BitVec 8
  type : BitVec 4
  app : BitVec 1
  dpl : BitVec 2
  present : BitVec 1
  sdLim1916 : BitVec 4
  available : BitVec 1
  zero : BitVec 1
  operandSize : BitVec 1
  granularity : BitVec 1
  baseHi : BitVec 8
  deriving DecidableEq

/-- `GDT_ENTRIES`. -/
def gdtEntries : Nat := 5 + 8

/-- `gdt`. -/
abbrev Gdt := Fin gdtEntries → GdtEntry

/-- What `gdt_set_gate` and `gdt_set_gate16` write to an entry.  They differ in the limit. -/
def segmentEntry (base : BitVec 32) (limitLo : BitVec 16) (sdLim1916 : BitVec 4)
    (granularity : BitVec 1) (dpl type : BitVec 8) : GdtEntry where
  limitLo := limitLo
  baseLo := (base &&& 0xFFFF).setWidth 16
  baseMd := (base >>> 16 &&& 0xFF).setWidth 8
  type := type.setWidth 4
  app := 1
  dpl := dpl.setWidth 2
  present := 1
  sdLim1916 := sdLim1916
  available := 0
  zero := 0
  operandSize := 1
  granularity := granularity
  baseHi := (base >>> 24).setWidth 8

/-- `gdt_set_gate`. -/
def gdtSetGate (gdt : Gdt) (num : Fin gdtEntries) (base lim : BitVec 32) (dpl type : BitVec 8) :
    Gdt :=
  update gdt num
    (segmentEntry base ((lim >>> 12 &&& 0xFFFF).setWidth 16) ((lim >>> 28).setWidth 4) 1 dpl type)

/-- `gdt_set_gate16`. -/
def gdtSetGate16 (gdt : Gdt) (num : Fin gdtEntries) (base lim : BitVec 32) (dpl type : BitVec 8) :
    Gdt :=
  update gdt num
    (segmentEntry base ((lim &&& 0xFFFF).setWidth 16) ((lim >>> 16).setWidth 4) 0 dpl type)

/-- `struct idt_entry`. -/
structure IdtEntry where
  gdOff150 : BitVec 16
  gdSel : BitVec 16
  gdZero : BitVec 8
  gdType : BitVec 4
  gdS : BitVec 1
  gdDpl : BitVec 2
  gdP : BitVec 1
  gdOff3116 : BitVec 16
  deriving DecidableEq

/-- `STS_IG32`. -/
def stsIg32 : BitVec 4 := 0xE

/-- `STS_TG32`. -/
def stsTg32 : BitVec 4 := 0xF

/-- `idt`, which has an entry for every `uint8_t`. -/
abbrev Idt := BitVec 8 → IdtEntry

/-- `idt_set_gate`. -/
def idtSetGate (idt : Idt) (num : BitVec 8) (istrap : Bool) (sel : BitVec 16) (off : BitVec 32)
    (dpl : BitVec 8) : Idt :=
  update idt num
    { gdOff150 := (off &&& 0xFFFF).setWidth 16
      gdSel := sel
      gdZero := 0
      gdType := if istrap then stsTg32 else stsIg32
      gdS := 0
      gdDpl := dpl.setWidth 2
      gdP := 1
      gdOff3116 := (off >>> 16).setWidth 16 }

/-- `idt_set_gate2`. -/
def idtSetGate2 (idt : Idt) (num : BitVec 8) (base : BitVec 32) (sel : BitVec 16)
    (flags : BitVec 8) : Idt :=
  update idt num
    { gdOff150 := (base &&& 0xFFFF).setWidth 16
      gdOff3116 := (base >>> 16).setWidth 16
      gdSel := sel
      gdZero := 0
      gdType := if flags &&& 0xF ≠ 0 then stsTg32 else stsIg32
      gdS := 0
      gdDpl := (flags >>> 5 &&& 3).setWidth 2
      gdP := (flags >>> 7 &&& 1).setWidth 1 }

/-- The calls of `init_irq`, with the addresses of `irq0` to `irq15`.  The numbers of the interrupts
follow each other from `IRQ_OFFSET` on. -/
def initIrq (irq : Nat → BitVec 32) (idt : Idt) : Idt :=
  (List.range 16).foldl (fun idt n => idtSetGate2 idt (BitVec.ofNat 8 (0x20 + n)) (irq n) 0x08 0x8E)
    idt

/-! ## The bits of a descriptor -/

/-- The 64 bits of a segment descriptor. -/
def GdtEntry.raw (e : GdtEntry) : BitVec 64 :=
  e.baseHi ++ e.granularity ++ e.operandSize ++ e.zero ++ e.available ++ e.sdLim1916 ++ e.present ++
    e.dpl ++ e.app ++ e.type ++ e.baseMd ++ e.baseLo ++ e.limitLo

/-- The 64 bits of a gate. -/
def IdtEntry.raw (e : IdtEntry) : BitVec 64 :=
  e.gdOff3116 ++ e.gdP ++ e.gdDpl ++ e.gdS ++ e.gdType ++ e.gdZero ++ e.gdSel ++ e.gdOff150

/-- A segment, as the processor sees it. -/
structure SegmentDesc where
  base : BitVec 32
  limit : BitVec 32
  type : BitVec 4
  app : BitVec 1
  dpl : BitVec 2
  present : BitVec 1
  deriving DecidableEq

/-- The processor takes a segment descriptor apart.  If bit 55 is set, the limit is in units of
4096 bytes. -/
def segment (d : BitVec 64) : SegmentDesc where
  base := d.extractLsb' 56 8 ++ (d.extractLsb' 32 8 ++ d.extractLsb' 16 16)
  limit :=
    let limit := d.extractLsb' 48 4 ++ d.extractLsb' 0 16
    if d.extractLsb' 55 1 = 1 then limit ++ 0xFFF#12 else 0#12 ++ limit
  type := d.extractLsb' 40 4
  app := d.extractLsb' 44 1
  dpl := d.extractLsb' 45 2
  present := d.extractLsb' 47 1

/-- A gate, as the processor sees it. -/
structure GateDesc where
  offset : BitVec 32
  selector : BitVec 16
  type : BitVec 4
  s : BitVec 1
  dpl : BitVec 2
  present : BitVec 1
  deriving DecidableEq

/-- The processor takes a gate apart. -/
def gate (d : BitVec 64) : GateDesc where
  offset := d.extractLsb' 48 16 ++ d.extractLsb' 0 16
  selector := d.extractLsb' 16 16
  type := d.extractLsb' 40 4
  s := d.extractLsb' 44 1
  dpl := d.extractLsb' 45 2
  present := d.extractLsb' 47 1

/-- **The processor finds the fields** of a segment descriptor. -/
theorem segment_raw (e : GdtEntry) : segment e.raw =
    { base := e.baseHi ++ (e.baseMd ++ e.baseLo)
      limit := if e.granularity = 1 then (e.sdLim1916 ++ e.limitLo) ++ 0xFFF#12
        else 0#12 ++ (e.sdLim1916 ++ e.limitLo)
      type := e.type
      app := e.app
      dpl := e.dpl
      present := e.present } := by
  simp (disch := decide) only [segment, GdtEntry.raw, BitVec.extractLsb'_append_eq_of_le,
    BitVec.extractLsb'_append_eq_of_add_le, Nat.reduceSub, extractLsb'_eq_self]

/-- **The processor finds the fields** of a gate. -/
theorem gate_raw (e : IdtEntry) : gate e.raw =
    { offset := e.gdOff3116 ++ e.gdOff150
      selector := e.gdSel
      type := e.gdType
      s := e.gdS
      dpl := e.gdDpl
      present := e.gdP } := by
  simp (disch := decide) only [gate, IdtEntry.raw, BitVec.extractLsb'_append_eq_of_le,
    BitVec.extractLsb'_append_eq_of_add_le, Nat.reduceSub, extractLsb'_eq_self]

/-! ## Cutting words into fields -/

section
variable {w n k : Nat}

theorem setWidth_ushiftRight (x : BitVec w) (k n : Nat) :
    (x >>> k).setWidth n = x.extractLsb' k n := by
  refine BitVec.eq_of_getLsbD_eq fun i hi => ?_
  rw [BitVec.getLsbD_setWidth, BitVec.getLsbD_ushiftRight, BitVec.getLsbD_extractLsb']

theorem setWidth_eq_extract (x : BitVec w) (n : Nat) : x.setWidth n = x.extractLsb' 0 n := by
  rw [← setWidth_ushiftRight, BitVec.ushiftRight_zero]

theorem setWidth_and_mask (x mask : BitVec w) (hmask : mask.setWidth n = BitVec.allOnes n) :
    (x &&& mask).setWidth n = x.setWidth n := by
  rw [BitVec.setWidth_and, hmask, BitVec.and_allOnes]

theorem base_fields (base : BitVec 32) :
    (base >>> 24).setWidth 8 ++
      ((base >>> 16 &&& 0xFF).setWidth 8 ++ (base &&& 0xFFFF).setWidth 16) = base := by
  rw [setWidth_and_mask _ _ (by decide), setWidth_and_mask _ _ (by decide), setWidth_ushiftRight,
    setWidth_ushiftRight, setWidth_eq_extract base,
    extractLsb'_append_extractLsb'_eq_extractLsb' (show 16 = 0 + 16 from rfl),
    extractLsb'_append_extractLsb'_eq_extractLsb' (show 24 = 0 + (8 + 16) from rfl)]
  exact extractLsb'_eq_self

theorem offset_fields (off : BitVec 32) :
    (off >>> 16).setWidth 16 ++ (off &&& 0xFFFF).setWidth 16 = off := by
  rw [setWidth_and_mask _ _ (by decide), setWidth_ushiftRight, setWidth_eq_extract off,
    extractLsb'_append_extractLsb'_eq_extractLsb' (show 16 = 0 + 16 from rfl)]
  exact extractLsb'_eq_self

theorem limit_pages {lim : BitVec 32} (hlow : lim &&& 0xFFF = 0xFFF) :
    (lim >>> 28).setWidth 4 ++ (lim >>> 12 &&& 0xFFFF).setWidth 16 ++ 0xFFF#12 = lim := by
  have hfff : 0xFFF#12 = lim.extractLsb' 0 12 := by
    rw [← setWidth_eq_extract, ← setWidth_and_mask lim 0xFFF (by decide), hlow]
    rfl
  rw [hfff, setWidth_and_mask _ _ (by decide), setWidth_ushiftRight, setWidth_ushiftRight,
    extractLsb'_append_extractLsb'_eq_extractLsb' (show 28 = 12 + 16 from rfl),
    extractLsb'_append_extractLsb'_eq_extractLsb' (show 12 = 0 + 12 from rfl)]
  exact extractLsb'_eq_self

theorem limit_bytes {lim : BitVec 32} (hlim : lim.toNat < 2 ^ 20) :
    0#12 ++ ((lim >>> 16).setWidth 4 ++ (lim &&& 0xFFFF).setWidth 16) = lim := by
  have hhigh : 0#12 = lim.extractLsb' 20 12 := by
    refine BitVec.eq_of_toNat_eq ?_
    rw [BitVec.extractLsb'_toNat, Nat.shiftRight_eq_div_pow, Nat.div_eq_of_lt hlim]
    rfl
  rw [hhigh, setWidth_and_mask _ _ (by decide), setWidth_ushiftRight, setWidth_eq_extract lim,
    extractLsb'_append_extractLsb'_eq_extractLsb' (show 16 = 0 + 16 from rfl),
    extractLsb'_append_extractLsb'_eq_extractLsb' (show 20 = 0 + (4 + 16) from rfl)]
  exact extractLsb'_eq_self

theorem setWidth_setWidth_of_lt {x : BitVec 8} (h : x.toNat < 2 ^ n) :
    (x.setWidth n).setWidth 8 = x := by
  refine BitVec.eq_of_toNat_eq ?_
  rw [BitVec.toNat_setWidth, BitVec.toNat_setWidth, Nat.mod_eq_of_lt h, Nat.mod_eq_of_lt x.isLt]

end

/-! ## What the processor gets -/

theorem segment_segmentEntry (base : BitVec 32) (limitLo : BitVec 16) (sdLim1916 : BitVec 4)
    (granularity : BitVec 1) (dpl type : BitVec 8) :
    segment (segmentEntry base limitLo sdLim1916 granularity dpl type).raw =
      { base := base
        limit := if granularity = 1 then (sdLim1916 ++ limitLo) ++ 0xFFF#12
          else 0#12 ++ (sdLim1916 ++ limitLo)
        type := type.setWidth 4
        app := 1
        dpl := dpl.setWidth 2
        present := 1 } := by
  rw [segment_raw, segmentEntry]
  rw [base_fields]

/-- The segment that was passed. -/
def segmentOf (base lim : BitVec 32) (dpl type : BitVec 8) : SegmentDesc :=
  ⟨base, lim, type.setWidth 4, 1, dpl.setWidth 2, 1⟩

theorem segment_gdtSetGate (gdt : Gdt) (num : Fin gdtEntries) (base : BitVec 32) {lim : BitVec 32}
    (hlim : lim &&& 0xFFF = 0xFFF) (dpl type : BitVec 8) :
    segment (gdtSetGate gdt num base lim dpl type num).raw = segmentOf base lim dpl type := by
  rw [gdtSetGate, update_self, segment_segmentEntry, if_pos rfl, limit_pages hlim]
  rfl

theorem segment_gdtSetGate16 (gdt : Gdt) (num : Fin gdtEntries) (base : BitVec 32)
    {lim : BitVec 32} (hlim : lim.toNat < 2 ^ 20) (dpl type : BitVec 8) :
    segment (gdtSetGate16 gdt num base lim dpl type num).raw = segmentOf base lim dpl type := by
  rw [gdtSetGate16, update_self, segment_segmentEntry, if_neg (by decide),
    limit_bytes hlim]
  rfl

theorem gate_idtSetGate (idt : Idt) (num : BitVec 8) (istrap : Bool) (sel : BitVec 16)
    (off : BitVec 32) (dpl : BitVec 8) :
    gate (idtSetGate idt num istrap sel off dpl num).raw =
      ⟨off, sel, if istrap then stsTg32 else stsIg32, 0, dpl.setWidth 2, 1⟩ := by
  rw [idtSetGate, update_self, gate_raw]
  rw [offset_fields]

theorem gate_idtSetGate2 (idt : Idt) (num : BitVec 8) (base : BitVec 32) (sel : BitVec 16)
    (flags : BitVec 8) :
    gate (idtSetGate2 idt num base sel flags num).raw =
      ⟨base, sel, if flags &&& 0xF ≠ 0 then stsTg32 else stsIg32, 0, flags.extractLsb' 5 2,
        flags.extractLsb' 7 1⟩ := by
  rw [idtSetGate2, update_self, gate_raw]
  dsimp only
  rw [offset_fields, setWidth_and_mask _ _ (by decide), setWidth_and_mask _ _ (by decide),
    setWidth_ushiftRight, setWidth_ushiftRight]

theorem gateType_iff : ∀ flags : BitVec 8,
    (if flags &&& 0xF ≠ 0 then stsTg32 else stsIg32) = flags.extractLsb' 0 4 ↔
      flags &&& 0xF = 0xF := by
  decide +kernel

/-- **What was passed is what the processor gets.**  For every slot and all arguments:
`gdt_set_gate` with a limit whose low 12 bits are set, and `gdt_set_gate16` with a limit of 20 bits,
give a segment with this base and limit, and if they fit into their fields, with this type and
privilege level; `idt_set_gate` gives a gate with this offset, selector and privilege level, of the
type that was asked for; `idt_set_gate2` gives a gate with this offset and selector, and the
privilege level and the present bit that are in the flags.  No other slot changes.  The type of the
last one is the one in the flags exactly if that is the type of a trap gate. -/
theorem descriptors_decode (gdt : Gdt) (idt : Idt) :
    (∀ num base lim dpl type, lim &&& 0xFFF = 0xFFF → dpl.toNat < 2 ^ 2 → type.toNat < 2 ^ 4 →
      let s := segment (gdtSetGate gdt num base lim dpl type num).raw
      s.base = base ∧ s.limit = lim ∧ s.dpl.setWidth 8 = dpl ∧ s.type.setWidth 8 = type ∧
        ∀ other, other ≠ num → gdtSetGate gdt num base lim dpl type other = gdt other) ∧
    (∀ num base lim dpl type, lim.toNat < 2 ^ 20 → dpl.toNat < 2 ^ 2 → type.toNat < 2 ^ 4 →
      let s := segment (gdtSetGate16 gdt num base lim dpl type num).raw
      s.base = base ∧ s.limit = lim ∧ s.dpl.setWidth 8 = dpl ∧ s.type.setWidth 8 = type ∧
        ∀ other, other ≠ num → gdtSetGate16 gdt num base lim dpl type other = gdt other) ∧
    (∀ num istrap sel off dpl, dpl.toNat < 2 ^ 2 →
      let g := gate (idtSetGate idt num istrap sel off dpl num).raw
      g.offset = off ∧ g.selector = sel ∧ g.dpl.setWidth 8 = dpl ∧
        g.type = (if istrap then stsTg32 else stsIg32) ∧
        ∀ other, other ≠ num → idtSetGate idt num istrap sel off dpl other = idt other) ∧
    ∀ num base sel flags,
      let g := gate (idtSetGate2 idt num base sel flags num).raw
      g.offset = base ∧ g.selector = sel ∧ g.present = flags.extractLsb' 7 1 ∧
        g.dpl = flags.extractLsb' 5 2 ∧
        (g.type = flags.extractLsb' 0 4 ↔ flags &&& 0xF = 0xF) ∧
        ∀ other, other ≠ num → idtSetGate2 idt num base sel flags other = idt other := by
  refine ⟨?_, ?_, ?_, ?_⟩
  · intro num base lim dpl type hlim hdpl htype
    rw [segment_gdtSetGate gdt num base hlim]
    exact ⟨rfl, rfl, setWidth_setWidth_of_lt hdpl, setWidth_setWidth_of_lt htype,
      fun other hne => update_of_ne hne _ _⟩
  · intro num base lim dpl type hlim hdpl htype
    rw [segment_gdtSetGate16 gdt num base hlim]
    exact ⟨rfl, rfl, setWidth_setWidth_of_lt hdpl, setWidth_setWidth_of_lt htype,
      fun other hne => update_of_ne hne _ _⟩
  · intro num istrap sel off dpl hdpl
    rw [gate_idtSetGate]
    exact ⟨rfl, rfl, setWidth_setWidth_of_lt hdpl, rfl,
      fun other hne => update_of_ne hne _ _⟩
  · intro num base sel flags
    rw [gate_idtSetGate2]
    exact ⟨rfl, rfl, rfl, rfl, gateType_iff flags, fun other hne => update_of_ne hne _ _⟩

/-- An entry that has not been set. -/
def noGate : IdtEntry := ⟨0, 0, 0, 0, 0, 0, 0, 0⟩

/-- `GDT_UDATA`. -/
def gdtUdata : Fin gdtEntries := ⟨4, by decide⟩

/-- A data segment, and a gate with the type of a trap gate. -/
theorem descriptors_decode_user :
    (segment (gdtSetGate (fun _ => segmentEntry 0 0 0 0 0 0) gdtUdata 0 0xBFFFFFFF 3 2
        gdtUdata).raw).limit = 0xBFFFFFFF ∧
      (gate (idtSetGate2 (fun _ => noGate) 0x80 0x1234 8 0xEF 0x80).raw).type = 0xF := by
  obtain ⟨hgdt, -, -, hidt⟩ :=
    descriptors_decode (fun _ => segmentEntry 0 0 0 0 0 0) (fun _ => noGate)
  refine ⟨(hgdt gdtUdata 0 0xBFFFFFFF 3 2 (by decide) (by decide) (by decide)).2.1, ?_⟩
  exact (hidt 0x80 0x1234 8 0xEF).2.2.2.2.1.2 (by decide)

/-- **The gates of `init_irq`**: the flags say interrupt gate, and the processor gets a trap gate.
-/
theorem irq_gate_is_trap :
    (gate (idtSetGate2 (fun _ => noGate) 0x20 0x1234 0x08 0x8E 0x20).raw).type = stsTg32 ∧
      (0x8E#8).extractLsb' 0 4 = stsIg32 ∧ stsTg32 ≠ stsIg32 := by
  decide

/-- All of them are trap gates, whatever the handlers and the table are.  It is the `cli` of the
stubs that turns the interrupts off. -/
theorem gate_initIrq (irq : Nat → BitVec 32) (idt : Idt) {n : Nat} (hn : n < 16) :
    gate (initIrq irq idt (BitVec.ofNat 8 (0x20 + n))).raw = ⟨irq n, 0x08, stsTg32, 0, 0, 1⟩ := by
  have hcalls : ∀ (k : Nat), k ≤ 16 → ∀ n < k,
      gate (((List.range k).foldl (fun idt n =>
        idtSetGate2 idt (BitVec.ofNat 8 (0x20 + n)) (irq n) 0x08 0x8E) idt)
          (BitVec.ofNat 8 (0x20 + n))).raw = ⟨irq n, 0x08, stsTg32, 0, 0, 1⟩ := by
    intro k
    induction k with
    | zero => exact fun _ n hn => absurd hn (Nat.not_lt_zero n)
    | succ k ih =>
      intro hk n hn
      rw [List.range_succ, List.foldl_append, List.foldl_cons, List.foldl_nil]
      rcases Nat.lt_or_eq_of_le (Nat.le_of_lt_succ hn) with hlt | rfl
      · -- a later call is for another slot
        have hne : BitVec.ofNat 8 (0x20 + n) ≠ BitVec.ofNat 8 (0x20 + k) := by
          intro heq
          have := congrArg BitVec.toNat heq
          rw [toNat_ofNat, toNat_ofNat] at this
          omega
        rw [idtSetGate2, update_of_ne hne]
        exact ih (by omega) n hlt
      · rw [gate_idtSetGate2]
        rfl
  exact hcalls 16 (Nat.le_refl 16) n hn

end JinxOS
