import JinxOS.Lib.Memory
import JinxOS.Synch.Spinlock

/-!
# The kernel allocator

The code of `mem/mem.c`, of `mem/mm.c` up to `krealloc`, and of `mem/kmm.c`.

`mem_sbrk` hands out the memory between `kbrk_min` and `kbrk_max` in pages, and `kmalloc` and
`kfree` cut it into blocks.  A block starts with a word that holds its size and two flags: bit 0
says whether the block is in use, bit 1 whether the block before it is.  A free block repeats that
word at its end, and keeps the links of the free list in the two words after its header.  The head
of the free list is the first word of the heap.  `kpalloc` hands out whole pages from the other end
of the same region, by lowering `kbrk_max`.

Everything is stated about byte memory and 32-bit words: the structure fields are offsets, pointers
are numbers, and no access is ruled out.  A `while` loop is a recursion with a budget of one
iteration per address; running out of it is `Fault.diverges`.
-/

namespace JinxOS

/-! ## `mem.c` -/

/-- `PG_SIZE`. -/
def pgSize : Nat := 4096

/-- `MAX_HEAP`. -/
def maxHeap : Nat := 8 * 2 ^ 20

/-- `ROUNDDOWN(a, n)`. -/
def roundDown (a n : Nat) : Nat := Word.sub a (a % n)

/-- `ROUNDUP(a, n)`. -/
def roundUp (a n : Nat) : Nat := roundDown (Word.sub (Word.add a n) 1) n

/-- Where the linker puts `_end`, the end of the kernel image.  The image starts at
`0xC0100000` (`kern/kern.ld`), and the boot page directory, under which all of it is cleared and
run, maps the 16 MB from `0xC0000000` on. -/
structure Layout where
  /-- The address of `_end`, which is `KHEAP`. -/
  kheap : Nat
  /-- The image starts at its link address. -/
  link_le : 0xC0100000 ≤ kheap
  /-- The image ends inside the boot mapping. -/
  le_boot : kheap ≤ 0xC1000000

/-- What the allocators work on: memory, the three break variables, and the lock. -/
structure KMem where
  mem : ByteMem
  /-- The start of the heap. -/
  kbrkMin : Nat
  /-- The end of the byte heap. -/
  kbrk : Nat
  /-- The end of what `mem_sbrk` may hand out. -/
  kbrkMax : Nat
  cpu : Cpu
  memLock : Spinlock

/-- The panic of `mem_sbrk`. -/
def sbrkPanic : Fault := .panic "ERROR: mem_sbrk failed. Ran out of memory...\n"

/-- `init_mem`. -/
def initMem (L : Layout) (s : KMem) : KMem :=
  let kbrkMin := roundUp L.kheap pgSize
  { s with
    kbrkMin := kbrkMin
    kbrkMax := Word.add kbrkMin (roundDown maxHeap pgSize)
    kbrk := kbrkMin }

/-- `mem_sbrk`: the old break, and the state with the break moved. -/
def memSbrk (s : KMem) (incr : Nat) : Except Fault (Nat × KMem) :=
  let oldBrk := s.kbrk
  let incr := roundUp incr pgSize
  if s.kbrkMax < Word.add s.kbrk incr then .error sbrkPanic
  else .ok (oldBrk, { s with kbrk := Word.add s.kbrk incr })

/-- `mem_heap_lo`. -/
def memHeapLo (s : KMem) : Nat := s.kbrkMin

/-- `mem_heap_hi`. -/
def memHeapHi (s : KMem) : Nat := Word.sub s.kbrk 1

/-! ## Blocks and the free list -/

/-- `MIN_BLOCK_SIZE`: the three words of a `struct block` and the footer. -/
def minBlockSize : Nat := 16

/-- `SIZE(x)`. -/
def SIZE (x : Nat) : Nat := x &&& 0xFFFFFFFC

/-- `BLOCK_IS_USED(x)`, as the masked word. -/
def blockIsUsed (m : ByteMem) (b : Nat) : Nat := m.load b &&& 1

/-- `PREV_BLOCK_IS_USED(x)`, as the masked word. -/
def prevBlockIsUsed (m : ByteMem) (b : Nat) : Nat := m.load b &&& 2

/-- `find_free_block`, from the given list entry on; the null pointer is `0`. -/
def findFreeBlock (m : ByteMem) (size : Nat) : Nat → Nat → Except Fault Nat
  | 0, _ => .error .diverges
  | fuel + 1, fb =>
    if fb = 0 then .ok 0
    else if size ≤ SIZE (m.load fb) then .ok fb
    else findFreeBlock m size fuel (m.load (Word.add fb 4))

/-- `insert_free_block`.  `lo` is `mem_heap_lo()`, the address of `FREE_LIST_HEAD`; the `prev`
field of the new head is not written. -/
def insertFreeBlock (lo : Nat) (m : ByteMem) (fb : Nat) : ByteMem :=
  let oldHead := m.load lo
  let m := m.store (Word.add fb 4) oldHead
  let m := if oldHead = 0 then m else m.store (Word.add oldHead 8) fb
  m.store lo fb

/-- `remove_free_block`. -/
def removeFreeBlock (lo : Nat) (m : ByteMem) (fb : Nat) : ByteMem :=
  let nextFree := m.load (Word.add fb 4)
  let prevFree := m.load (Word.add fb 8)
  let m := if nextFree = 0 then m else m.store (Word.add nextFree 8) prevFree
  if fb = m.load lo then m.store lo nextFree else m.store (Word.add prevFree 4) nextFree

/-- The backward loop of `coalesce_free_block`: the memory, the block reached and the size
accumulated. -/
def coalescePrev (lo : Nat) : Nat → ByteMem → Nat → Nat → Except Fault (ByteMem × Nat × Nat)
  | 0, _, _, _ => .error .diverges
  | fuel + 1, m, cursor, newSize =>
    if prevBlockIsUsed m cursor = 0 then
      let size := SIZE (m.load (Word.sub cursor 4))
      let fb := Word.sub cursor size
      coalescePrev lo fuel (removeFreeBlock lo m fb) fb (Word.add newSize size)
    else .ok (m, cursor, newSize)

/-- The forward loop of `coalesce_free_block`. -/
def coalesceNext (lo : Nat) : Nat → ByteMem → Nat → Nat → Except Fault (ByteMem × Nat × Nat)
  | 0, _, _, _ => .error .diverges
  | fuel + 1, m, cursor, newSize =>
    if blockIsUsed m cursor = 0 then
      let size := SIZE (m.load cursor)
      coalesceNext lo fuel (removeFreeBlock lo m cursor) (Word.add cursor size)
        (Word.add newSize size)
    else .ok (m, cursor, newSize)

/-- `coalesce_free_block`. -/
def coalesceFreeBlock (lo : Nat) (m : ByteMem) (block : Nat) : Except Fault ByteMem := do
  let oldSize := SIZE (m.load block)
  let (m, newBlock, newSize) ← coalescePrev lo loopFuel m block oldSize
  let (m, cursor, newSize) ← coalesceNext lo loopFuel m (Word.add block oldSize) newSize
  if newSize = oldSize then .ok m
  else
    let m := removeFreeBlock lo m block
    let m := m.store newBlock (newSize ||| 2)
    let m := m.store (Word.sub cursor 4) (newSize ||| 2)
    .ok (insertFreeBlock lo m newBlock)

/-- `increase_heap`. -/
def increaseHeap (s : KMem) (size : Nat) : Except Fault KMem := do
  let npages := Word.sub (Word.add size pgSize) 1 / pgSize
  let totalSize := Word.mul npages pgSize
  let (brk, s) ← memSbrk s totalSize
  let newBlock := Word.sub brk 4
  let m := s.mem.store newBlock (totalSize ||| prevBlockIsUsed s.mem newBlock)
  let m := m.store (Word.add newBlock (Word.sub totalSize 4))
    (totalSize ||| prevBlockIsUsed m newBlock)
  let m := m.store (Word.add newBlock totalSize) 1
  let m := insertFreeBlock (memHeapLo s) m newBlock
  let m ← coalesceFreeBlock (memHeapLo s) m newBlock
  .ok { s with mem := m }

/-- `valid_size`. -/
def validSize (size : Nat) : Nat :=
  let size := Word.add size 4
  if size ≤ minBlockSize then minBlockSize else Word.mul 4 (Word.sub (Word.add size 4) 1 / 4)

/-- `free_block`. -/
def freeBlock (lo : Nat) (m : ByteMem) (block blockSize keepSize : Nat) : Except Fault ByteMem :=
  let surplus := Word.add block keepSize
  let m :=
    if 0 < keepSize then m.store surplus (Word.sub blockSize keepSize ||| 2)
    else m.store surplus (blockSize ||| prevBlockIsUsed m block)
  let m := m.store (Word.add block (Word.sub blockSize 4)) (m.load surplus)
  let nextBlock := Word.add block blockSize
  let m := m.store nextBlock (m.load nextBlock ||| 2)
  let m := m.store nextBlock (m.load nextBlock ^^^ 2)
  coalesceFreeBlock lo (insertFreeBlock lo m surplus) surplus

/-! ## The allocator's interface -/

/-- `init_mm`. -/
def initMm (s : KMem) : Except Fault KMem := do
  let initSize := Word.mul 32 pgSize
  let (_, s) ← memSbrk s initSize
  let first := Word.add (memHeapLo s) 4
  let totalSize := Word.sub initSize 8
  let m := s.mem.store first (totalSize ||| 2)
  let m := m.store (Word.add first 4) 0
  let m := m.store (Word.add first 8) 0
  let m := m.store (Word.add first (Word.sub totalSize 4)) (m.load first)
  let m := m.store (Word.sub (memHeapHi s) 3) 1
  .ok { s with mem := m.store (memHeapLo s) first }

/-- The first half of the critical section of `kmalloc`: a free block that is large enough, after
growing the heap if there is none. -/
def kmallocFind (s : KMem) (allocSize : Nat) : Except Fault (Nat × KMem) := do
  let block ← findFreeBlock s.mem allocSize loopFuel (s.mem.load (memHeapLo s))
  if block = 0 then
    let s ← increaseHeap s allocSize
    let block ← findFreeBlock s.mem allocSize loopFuel (s.mem.load (memHeapLo s))
    .ok (block, s)
  else .ok (block, s)

/-- The second half: take the block off the free list and mark it used, giving back its end if
that is large enough for a block of its own. -/
def kmallocCarve (lo : Nat) (m : ByteMem) (block allocSize : Nat) : Except Fault ByteMem :=
  let m := removeFreeBlock lo m block
  let blockSize := SIZE (m.load block)
  if minBlockSize ≤ Word.sub blockSize allocSize then
    let m := m.store block (allocSize ||| 1 ||| prevBlockIsUsed m block)
    freeBlock lo m block blockSize allocSize
  else
    let m := m.store block (m.load block ||| (1 ||| prevBlockIsUsed m block))
    .ok (m.store (Word.add block blockSize) (m.load (Word.add block blockSize) ||| 2))

/-- `kmalloc`. -/
def kmalloc (s : KMem) (size : Nat) : Except Fault (Nat × KMem) :=
  if size = 0 then .ok (0, s)
  else do
    let (cpu, lk) ← spinlockAcquire s.cpu s.memLock
    let s := { s with cpu := cpu, memLock := lk }
    let allocSize := validSize size
    let (block, s) ← kmallocFind s allocSize
    let m ← kmallocCarve (memHeapLo s) s.mem block allocSize
    let (cpu, lk) ← spinlockRelease s.cpu s.memLock
    let ptr := Word.add block 4
    .ok (ptr, { s with mem := m.memset ptr 0 size, cpu := cpu, memLock := lk })

/-- `kfree`. -/
def kfree (s : KMem) (ptr : Nat) : Except Fault KMem :=
  if ptr = 0 then .ok s
  else do
    let (cpu, lk) ← spinlockAcquire s.cpu s.memLock
    let s := { s with cpu := cpu, memLock := lk }
    let block := Word.sub ptr 4
    let m ←
      if blockIsUsed s.mem block = 0 then .ok s.mem
      else freeBlock (memHeapLo s) s.mem block (SIZE (s.mem.load block)) 0
    let (cpu, lk) ← spinlockRelease s.cpu s.memLock
    .ok { s with mem := m, cpu := cpu, memLock := lk }

/-! ## `kmm.c` -/

/-- `init_kmm`. -/
def initKmm (s : KMem) : Except Fault KMem := do
  let s ← initMm s
  .ok { s with kbrkMax := roundDown s.kbrkMax pgSize, memLock := spinlockInit }

/-- `kpalloc`: the page, and the state after the call. -/
def kpalloc (s : KMem) : Except Fault (Nat × KMem) := do
  let (cpu, lk) ← spinlockAcquire s.cpu s.memLock
  let kptr := roundDown (Word.sub s.kbrkMax pgSize) pgSize
  let s := { s with kbrkMax := kptr, mem := s.mem.memset kptr 0 pgSize }
  let (cpu, lk) ← spinlockRelease cpu lk
  .ok (kptr, { s with cpu := cpu, memLock := lk })

end JinxOS
