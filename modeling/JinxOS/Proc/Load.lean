import JinxOS.Mem.KernelHalf

/-!
# Loading a program

`region_alloc` and `load_icode` of `proc/proc.c`.

The image of a program is linked into the kernel, and the code reads it at `binary`.  What it reads
is given by a memory of its own, `image`: the pages of the kernel are in use, so none of them is
handed out while the program is loaded.  What the code writes goes through the page directory of the
process, which `load_icode` has made the current one.  An access that the directory does not allow
ends in `isr_pgfault`, which returns to the instruction, which faults again.
-/

namespace JinxOS

/-! ## Memory of the process -/

/-- A byte is written under a page directory.  `init_vmm` has set `CR0_WP`, so that the kernel, too,
needs the right to write. -/
def Vmm.writeByte (s : Vmm) (pd va : Nat) (b : UInt8) : Except Fault Vmm :=
  match s.translate pd va with
  | some tr =>
    if tr.write then .ok (s.setMem (Function.update s.mem (pm2va tr.frame + va % pgSize) b))
    else .error .diverges
  | none => .error .diverges

/-- The byte that is read at an address under a page directory, if it is mapped. -/
def Vmm.readByte (s : Vmm) (pd va : Nat) : Option UInt8 :=
  (s.translate pd va).map fun tr => s.mem (pm2va tr.frame + va % pgSize)

/-- The loop of `memcpy` and of `memset`: `count` bytes are written from `dp` on. -/
def storeBytes (pd : Nat) (byte : Nat → UInt8) : Nat → Nat → Nat → Vmm → Except Fault Vmm
  | 0, _, _, s => .ok s
  | count + 1, dp, sp, s => do
    let s ← s.writeByte pd dp (byte sp)
    storeBytes pd byte count (Word.add dp 1) (Word.add sp 1) s

/-- `memcpy(dst, src, count)`, from the image. -/
def memcpy (s : Vmm) (pd : Nat) (image : ByteMem) (dst src count : Nat) : Except Fault Vmm :=
  storeBytes pd image count dst src s

/-- `memset(dst, val, count)`. -/
def memset (s : Vmm) (pd : Nat) (dst : Nat) (val : UInt8) (count : Nat) : Except Fault Vmm :=
  storeBytes pd (fun _ => val) count dst 0 s

/-- The body of the loop of `region_alloc`. -/
def regionPage (pd i : Nat) (s : Vmm) : Except Fault Vmm := do
  let (pno, s) ← ppAlloc s
  let (r, s) ← pageInsert s pd pno i true true
  if r = enomem then .error (.panic "allocation attempt failed") else .ok s

/-- The loop of `region_alloc`. -/
def regionLoop (pd stop : Nat) : Nat → Nat → Vmm → Except Fault Vmm
  | 0, _, _ => .error .diverges
  | fuel + 1, i, s =>
    if i < stop then do
      let s ← regionPage pd i s
      regionLoop pd stop fuel (Word.add i pgSize) s
    else .ok s

/-- `region_alloc(proc, va, len)`, for the page directory of the process. -/
def regionAlloc (s : Vmm) (pd va len : Nat) : Except Fault Vmm := do
  assert "va != NULL" (va != 0)
  assert "va < va + len" (decide (va < Word.add va len))
  let beg := roundDown va pgSize
  let stop := roundUp (Word.add va len) pgSize
  assert "beg < end" (decide (beg < stop))
  regionLoop pd stop loopFuel beg s

/-! ## The image -/

/-- `ELF_MAGIC`. -/
def elfMagic : Nat := 0x464C457F

/-- `PT_LOAD`. -/
def ptLoad : Nat := 1

/-- `sizeof(struct prog)`. -/
def progSize : Nat := 32

/-- What `load_icode` reads of a `struct prog`. -/
structure Prog where
  type : Nat
  offset : Nat
  vaddr : Nat
  filesz : Nat
  memsz : Nat
  deriving DecidableEq, Repr

/-- The `struct prog` at an address. -/
def progAt (image : ByteMem) (ph : Nat) : Prog where
  type := image.load ph
  offset := image.load (ph + 4)
  vaddr := image.load (ph + 8)
  filesz := image.load (ph + 16)
  memsz := image.load (ph + 20)

/-- `elf->phnum`. -/
def phnum (image : ByteMem) (elf : Nat) : Nat := image.load (elf + 44) % 2 ^ 16

/-- `(uint8_t*) elf + elf->phoff`. -/
def firstProg (image : ByteMem) (elf : Nat) : Nat := Word.add elf (image.load (elf + 28))

/-! ## The code -/

/-- What is done for a program header with type `PT_LOAD`. -/
def loadSegment (image : ByteMem) (binary pd : Nat) (ph : Prog) (s : Vmm) : Except Fault Vmm := do
  assert "ph->filesz <= ph->memsz" (decide (ph.filesz ≤ ph.memsz))
  let s ← regionAlloc s pd ph.vaddr ph.memsz
  let s ← memcpy s pd image ph.vaddr (Word.add binary ph.offset) ph.filesz
  memset s pd (Word.add ph.vaddr ph.filesz) 0 (Word.sub ph.memsz ph.filesz)

/-- The body of the loop of `load_icode`. -/
def loadProg (image : ByteMem) (binary pd : Nat) (s : Vmm) (ph : Prog) : Except Fault Vmm :=
  if ph.type ≠ ptLoad then .ok s else loadSegment image binary pd ph s

/-- The loop of `load_icode`. -/
def loadLoop (image : ByteMem) (binary pd eph : Nat) : Nat → Nat → Vmm → Except Fault Vmm
  | 0, _, _ => .error .diverges
  | fuel + 1, ph, s =>
    if ph < eph then do
      let s ← loadProg image binary pd s (progAt image ph)
      loadLoop image binary pd eph fuel (Word.add ph progSize) s
    else .ok s

/-- Bytes that are written at addresses of the direct map. -/
def Vmm.writes (s : Vmm) (ws : List (Nat × UInt8)) : Vmm :=
  ws.foldl (fun s w => s.setMem (Function.update s.mem w.1 w.2)) s

/-- `load_icode(proc, binary, name)`, for the page directory of the process.  What `thread_fork` and
the assignments to the context of the new thread write to the heap of the kernel is given by `ws`.
-/
def loadIcode (s : Vmm) (pd : Nat) (image : ByteMem) (binary : Nat) (ws : List (Nat × UInt8)) :
    Except Fault Vmm := do
  assert "binary != NULL" (binary != 0)
  assert "elf->magic == ELF_MAGIC" (image.load binary == elfMagic)
  let _ ← paddr pd
  let ph := firstProg image binary
  let eph := Word.add ph (Word.mul (phnum image binary) progSize)
  let s ← loadLoop image binary pd eph (2 ^ 16) ph s
  let _ ← paddr s.kpd
  regionAlloc (s.writes ws) pd (Word.sub ustackTop pgSize) pgSize

/-! ## Program headers -/

/-- The program headers that the loop goes through.  If the table does not end before the last
address, `eph` wraps around and there are none. -/
def progs (image : ByteMem) (elf : Nat) : List Prog :=
  let ph := firstProg image elf
  if ph + phnum image elf * progSize < 2 ^ 32 then
    (List.range (phnum image elf)).map fun k => progAt image (ph + progSize * k)
  else []

/-- The program headers with type `PT_LOAD`. -/
def loads (image : ByteMem) (elf : Nat) : List Prog :=
  (progs image elf).filter fun ph => ph.type = ptLoad

theorem foldlM_loadProg (image : ByteMem) (binary pd : Nat) : ∀ (l : List Prog) (s : Vmm),
    l.foldlM (loadProg image binary pd) s =
      (l.filter fun ph => ph.type = ptLoad).foldlM
      (fun s ph => loadSegment image binary pd ph s) s := by
  intro l
  induction l with
  | nil => exact fun s => rfl
  | cons ph l ih =>
    intro s
    rw [List.foldlM_cons, loadProg]
    by_cases htype : ph.type = ptLoad
    · rw [if_neg (not_not.2 htype), List.filter_cons_of_pos (by simpa using htype),
        List.foldlM_cons]
      exact bind_congr ih
    · rw [if_pos htype, ok_bind, List.filter_cons_of_neg (by simpa using htype)]
      exact ih s

theorem loadLoop_eq (image : ByteMem) (binary pd : Nat) {eph : Nat} (heph : eph < 2 ^ 32) :
    ∀ (n fuel ph : Nat) (s : Vmm), ph + progSize * n = eph → n < fuel →
      loadLoop image binary pd eph fuel ph s =
        ((List.range n).map fun k => progAt image (ph + progSize * k)).foldlM
          (loadProg image binary pd) s := by
  intro n
  induction n with
  | zero =>
    intro fuel ph s hend hfuel
    obtain ⟨fuel, rfl⟩ := Nat.exists_eq_add_of_lt hfuel
    rw [loadLoop, if_neg (by omega)]
    rfl
  | succ n ih =>
    intro fuel ph s hend hfuel
    obtain ⟨fuel, rfl⟩ := Nat.exists_eq_succ_of_ne_zero (Nat.ne_zero_of_lt hfuel)
    rw [progSize] at hend
    rw [loadLoop, if_pos (by omega), Word.add_eq (by rw [progSize]; omega), List.range_succ_eq_map,
      List.map_cons, List.map_map, List.foldlM_cons]
    have htail : ((fun k => progAt image (ph + progSize * k)) ∘ Nat.succ) =
        fun k => progAt image (ph + progSize + progSize * k) := by
      funext k
      rw [Function.comp_apply, Nat.mul_succ, Nat.add_assoc, Nat.add_comm progSize]
    rw [htail, Nat.mul_zero, Nat.add_zero]
    refine bind_congr fun s' => ih fuel (ph + progSize) s' ?_ (by omega)
    rw [progSize]
    omega

/-- **The loop loads the segments.** -/
theorem loadLoop_loads (image : ByteMem) (binary pd : Nat) (s : Vmm) :
    loadLoop image binary pd
      (Word.add (firstProg image binary) (Word.mul (phnum image binary) progSize)) (2 ^ 16)
      (firstProg image binary) s =
        (loads image binary).foldlM (fun s ph => loadSegment image binary pd ph s) s := by
  rw [loads, ← foldlM_loadProg]
  have hn : phnum image binary < 2 ^ 16 := Nat.mod_lt _ (by decide)
  have hph : firstProg image binary < 2 ^ 32 := Word.add_lt ..
  have hmul : Word.mul (phnum image binary) progSize = phnum image binary * progSize :=
    Word.mul_eq (by rw [progSize]; omega)
  rw [hmul, progs]
  generalize phnum image binary = n at hn
  generalize firstProg image binary = ph at hph
  by_cases hfit : ph + n * progSize < 2 ^ 32
  · rw [if_pos hfit, Word.add_eq hfit]
    exact loadLoop_eq image binary pd hfit n _ ph s (by rw [Nat.mul_comm]) hn
  · have hwrap : ¬ ph < Word.add ph (n * progSize) := by
      rw [progSize] at hfit ⊢
      rw [Word.add]
      omega
    rw [if_neg hfit, show 2 ^ 16 = 65535 + 1 from rfl, loadLoop, if_neg hwrap]
    rfl

end JinxOS
