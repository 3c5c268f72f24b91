import JinxOS.Klib.Bitmap
import JinxOS.Mem.Mm

/-!
# Physical pages and page tables

The code of `mem/vmm.c`, and `pp_alloc` of `mem/pmm.c`.

A page directory and a page table are pages of 1024 words, each of which is a `struct pde` or
`struct pte`; the two have the same fields.  The kernel reaches every physical page through the
direct map, at `PM2VA` of its number, and memory is taken at these addresses.  `Vmm.translate` is
what the hardware makes of the tables.
-/

namespace JinxOS

/-! ## Addresses -/

/-- `KADDR`. -/
def kaddr : Nat := 0xC0000000

/-- `PT_SIZE`. -/
def ptSize : Nat := 2 ^ 22

/-- `MMIOLIM`. -/
def mmioLim : Nat := kaddr - ptSize

/-- `MMIOBASE`, which is also `ULIM`. -/
def mmioBase : Nat := mmioLim - ptSize

/-- `UTOP`, which is `UENVS`: three tables below `ULIM`. -/
def utop : Nat := mmioBase - ptSize - ptSize - ptSize

/-- `USTACKTOP`. -/
def ustackTop : Nat := utop - 2 * pgSize

/-- `PM2VA(pm)`. -/
def pm2va (pm : Nat) : Nat := Word.add (Word.mul pm pgSize) kaddr

/-- `PA2PM(pa)`. -/
def pa2pm (pa : Nat) : Nat := pa >>> 12

/-- `PDX(a)`.  The mask of ten bits is the reduction modulo 1024. -/
def pdx (a : Nat) : Fin 1024 := Fin.ofNat 1024 (a >>> 22)

/-- `PTX(a)`. -/
def ptx (a : Nat) : Fin 1024 := Fin.ofNat 1024 (a >>> 12)

/-- The address of an entry of a table. -/
def entryAddr (table : Nat) (i : Fin 1024) : Nat := Word.add table (4 * i.val)

/-! ## Entries -/

/-- `struct pte` and `struct pde`. -/
structure Pte where
  present : Bool
  write : Bool
  user : Bool
  /-- `zero2`, `accessed`, `dirty`, `page_size` and `zero4`, which no code uses. -/
  rest : BitVec 9
  addr : BitVec 20
  deriving DecidableEq, Repr

/-- The fields of a word. -/
def Pte.decode (w : Nat) : Pte where
  present := w % 2 == 1
  write := w / 2 % 2 == 1
  user := w / 4 % 2 == 1
  rest := BitVec.ofNat 9 (w / 8)
  addr := BitVec.ofNat 20 (w / 4096)

/-- The word with these fields. -/
def Pte.encode (e : Pte) : Nat :=
  e.present.toNat + 2 * e.write.toNat + 4 * e.user.toNat + 8 * e.rest.toNat + 4096 * e.addr.toNat

/-- The four assignments that make an entry point to a page. -/
def Pte.set (e : Pte) (write user : Bool) (pno : Nat) : Pte :=
  { e with present := true, write := write, user := user, addr := BitVec.ofNat 20 pno }

/-- What memory management works on. -/
structure Vmm where
  /-- Memory, and the kernel's heap. -/
  k : KMem
  physmap : Bitmap
  npages : Nat
  kpd : Nat
  /-- `static size_t base` of `mmio_map`. -/
  base : Nat

namespace Vmm

/-- Memory. -/
def mem (s : Vmm) : ByteMem := s.k.mem

/-- Memory changes. -/
def setMem (s : Vmm) (m : ByteMem) : Vmm := { s with k := { s.k with mem := m } }

/-- The entry at an address. -/
def entry (s : Vmm) (a : Nat) : Pte := Pte.decode (s.mem.load a)

/-- Assignments to the entry at an address. -/
def setEntry (s : Vmm) (a : Nat) (e : Pte) : Vmm := s.setMem (s.mem.store a e.encode)

end Vmm

/-! ## The code -/

/-- The panic of `pp_alloc`. -/
def ppPanic : Fault := .panic "out of physical memory npages"

/-- `pp_alloc`. -/
def ppAlloc (s : Vmm) : Except Fault (Nat × Vmm) := do
  let (r, b) ← bitmapAlloc s.physmap
  match r with
  | none => .error ppPanic
  | some idx => .ok (idx, { s with physmap := b }.setMem (s.mem.memset (pm2va idx) 0 pgSize))

/-- The part of `pgdir_walk` that makes a table. -/
def pgdirAlloc (s : Vmm) (a : Nat) (write user : Bool) : Except Fault Vmm := do
  let (pno, s) ← ppAlloc s
  .ok (s.setEntry a ((s.entry a).set write user pno))

/-- `pgdir_walk`: the address of the entry of the page, and the state after the call. -/
def pgdirWalk (s : Vmm) (pd va : Nat) (write user alloc : Bool) : Except Fault (Nat × Vmm) := do
  let a := entryAddr pd (pdx va)
  let s ← if !(s.entry a).present && alloc then pgdirAlloc s a write user else .ok s
  .ok (entryAddr (pm2va (s.entry a).addr.toNat) (ptx va), s)

/-- `page_insert`: what it returns, and the state after the call. -/
def pageInsert (s : Vmm) (pgdir pno va : Nat) (write user : Bool) : Except Fault (Nat × Vmm) := do
  assert "pgdir != NULL" (pgdir != 0)
  let (pg, s) ← pgdirWalk s pgdir va write user true
  if pg = 0 then .ok (enomem, s)
  else do
    assert "!pg->present" (!(s.entry pg).present)
    .ok (0, s.setEntry pg ((s.entry pg).set write user pno))

/-- The loop of `boot_map`. -/
def bootMapLoop (pd va pa bytes : Nat) (write user : Bool) : Nat → Nat → Vmm → Except Fault Vmm
  | 0, _, _ => .error .diverges
  | fuel + 1, i, s =>
    if i < bytes then do
      let (pg, s) ← pgdirWalk s pd (Word.add va i) write user true
      let s := s.setEntry pg ((s.entry pg).set write user (pa2pm (Word.add pa i)))
      bootMapLoop pd va pa bytes write user fuel (Word.add i pgSize) s
    else .ok s

/-- `boot_map`. -/
def bootMap (s : Vmm) (pd va pa bytes : Nat) (write user : Bool) : Except Fault Vmm :=
  bootMapLoop pd va pa bytes write user loopFuel 0 s

/-- `mmio_map`. -/
def mmioMap (s : Vmm) (pa size : Nat) : Except Fault (Nat × Vmm) := do
  let size := roundUp size pgSize
  if mmioLim < Word.add s.base size then
    .error (.panic "ERROR: this reservation would overflow the mmio region")
  else do
    let s ← bootMap s s.kpd s.base pa size true false
    let s := { s with base := Word.add s.base size }
    .ok (Word.sub s.base size, s)

/-- `PADDR(va)`. -/
def paddr (va : Nat) : Except Fault Nat :=
  if va < kaddr then .error (.panic "PADDR called with invalid va %08x") else
    .ok (Word.sub va kaddr)

/-- `init_vmm`, up to the change of page directory; `bstack` is the address of the boot stack. -/
def initVmm (s : Vmm) (bstack : Nat) : Except Fault Vmm := do
  let (kpd, k) ← kpalloc s.k
  let s := { s with k := k, kpd := kpd }
  let s ← bootMap s s.kpd kaddr 0 (Word.mul s.npages pgSize) true false
  let pa ← paddr bstack
  bootMap s s.kpd (Word.sub kaddr (2 ^ 15)) pa (2 ^ 15) true false

/-- `pgdir[i] = kpd[i]`. -/
def Vmm.copyEntry (s : Vmm) (pgdir : Nat) (i : Fin 1024) : Vmm :=
  s.setMem (s.mem.store (entryAddr pgdir i) (s.mem.load (entryAddr s.kpd i)))

/-- `pgdir_create`, for the page that `page_get` returns. -/
def pgdirCreate (s : Vmm) (pgdir : Nat) : Vmm :=
  ((List.finRange 1024).filter fun i => pdx utop ≤ i).foldl (fun s i => s.copyEntry pgdir i)
    (s.setMem (s.mem.memset pgdir 0 pgSize))

/-! ## The hardware -/

/-- What an address is translated to. -/
structure Translation where
  /-- The number of the physical page. -/
  frame : Nat
  /-- Writing is allowed. -/
  write : Bool
  /-- User code has access. -/
  user : Bool
  deriving DecidableEq, Repr

/-- The rights are those that both entries give. -/
def Translation.of (d e : Pte) : Translation := ⟨e.addr.toNat, d.write && e.write, d.user && e.user⟩

/-- The translation of an address under a page directory. -/
def Vmm.translate (s : Vmm) (pd va : Nat) : Option Translation :=
  let d := s.entry (entryAddr pd (pdx va))
  let e := s.entry (entryAddr (pm2va d.addr.toNat) (ptx va))
  if d.present && e.present then some (.of d e) else none

end JinxOS
