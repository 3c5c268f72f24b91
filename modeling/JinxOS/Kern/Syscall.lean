import JinxOS.Thread.Progress

/-!
# System calls

`isr_handler` of `kern/isr.c` for `int 0x30`, `syscall` of `kern/syscall.c`, and `thread_exit` of
`thread/thread.c` with the semaphores as it uses them.

The gate of `int 0x30` is open to user mode, and one dispatcher serves user programs and the kernel
itself: `thread_wait`, with which the kernel puts a thread to sleep, is the same system call as a
user's.  Its two arguments are pointers, and `syscall` tests only that they are not null.

Wait channels, spinlocks and semaphores are known by their addresses here, which are numbers.  The
outcome of a call says what becomes of the calling thread, up to where it leaves the CPU, and lists
the numbers from the trap frame that `thread_switch` has written through.

The array part of `wchan_destroy` is in `JinxOS.Synch.WchanTable`, and the loop of `proc_remthread`
in `JinxOS.Proc.Proc`; here a process has the list of its threads.
-/

namespace JinxOS

open Function (update_self update_of_ne update)

/-! ## The state -/

/-- `struct semaphore`. -/
structure KSem where
  /-- The address `sem_wchan`. -/
  wchan : Nat
  /-- The address of `sem_lock`. -/
  lock : Nat
  count : Nat
  deriving DecidableEq, Repr

/-- What `thread_exit` uses of `struct thread`. -/
structure ExitInfo (T : Type) where
  rval : Int
  parent : Option T
  psem : Option Nat
  csem : Option Nat
  inInterrupt : Bool

/-- The kernel. -/
structure Kernel (T : Type) where
  /-- The scheduler, with wait channels and spinlocks at their addresses. -/
  sched : Sched T Nat Nat
  /-- The rest of the thread structures. -/
  info : T → ExitInfo T
  /-- The semaphores. -/
  sem : Nat → Option KSem
  /-- `threads` of each process. -/
  threads : Nat → List T
  /-- What has been written to the console. -/
  console : List Nat

/-- What becomes of the thread that makes a system call. -/
inductive SysEnd
  /-- It goes on with this value in `eax`. -/
  | returns (ret : Int)
  /-- It is a zombie. -/
  | terminated
  /-- It is on a list, and another thread runs. -/
  | suspended
  deriving DecidableEq, Repr

variable {T : Type} [DecidableEq T]

/-! ## The code -/

namespace Kernel

/-- The semaphore at an address. -/
def getSem (s : Kernel T) (a : Nat) : Except Fault KSem :=
  match s.sem a with
  | none => .error .useAfterFree
  | some sem => .ok sem

/-- An assignment to a semaphore, or its deallocation. -/
def setSem (s : Kernel T) (a : Nat) (sem : Option KSem) : Kernel T :=
  { s with sem := update s.sem a sem }

/-- `thread_wait`, or the same call by a user. -/
def threadWait (s : Sched T Nat Nat) (a1 a2 : Nat) : Except Fault (Sched T Nat Nat) := do
  assert "a1 != 0" (decide (a1 ≠ 0))
  assert "a2 != 0" (decide (a2 ≠ 0))
  threadSwitch s .sleep (some a1) (some a2)

/-- `V`. -/
def v (s : Kernel T) (p : Option Nat) : Except Fault (Kernel T) := do
  assert "sem != NULL" p.isSome
  let a ← deref p
  let sem ← s.getSem a
  let sched ← s.sched.acquire sem.lock
  let sem := { sem with count := Word.add sem.count 1 }
  assert "sem->sem_count > 0" (decide (0 < sem.count))
  let sched ← wchanWakeone sched sem.wchan sem.lock
  let sched ← sched.release sem.lock
  .ok { s.setSem a (some sem) with sched := sched }

/-- `wchan_sleep`, up to where the thread leaves the CPU. -/
def sleep (s : Kernel T) (sched : Sched T Nat Nat) (wc lk : Nat) :
    Except Fault (Sched T Nat Nat) := do
  assert "!thisthread->in_interrupt" (!(s.info sched.thisthread).inInterrupt)
  assert "spinlock_held(lk)" (spinlockHeld sched.cpu (sched.lock lk))
  assert "thiscpu->spinlocks == 1" (sched.cpu.spinlocks == 1)
  threadWait sched wc lk

/-- `P`.  The answer says whether it is complete; otherwise the thread sleeps, and another one has
the CPU. -/
def p (s : Kernel T) (p : Option Nat) : Except Fault (Bool × Kernel T) := do
  assert "sem != NULL" p.isSome
  let a ← deref p
  let sem ← s.getSem a
  assert "thisthread->in_interrupt == false" (!(s.info s.sched.thisthread).inInterrupt)
  let sched ← s.sched.acquire sem.lock
  if sem.count = 0 then do
    let sched ← s.sleep sched sem.wchan sem.lock
    .ok (false, { s with sched := sched })
  else do
    assert "sem->sem_count > 0" (decide (0 < sem.count))
    let sched ← sched.release sem.lock
    .ok (true, { s.setSem a (some { sem with count := Word.sub sem.count 1 }) with sched := sched })

/-- `semaphore_destroy`. -/
def semaphoreDestroy (s : Kernel T) (p : Option Nat) : Except Fault (Kernel T) := do
  assert "sem != NULL" p.isSome
  let a ← deref p
  let sem ← s.getSem a
  assert "!spinlock_held(lk)" (!spinlockHeld s.sched.cpu (s.sched.lock sem.lock))
  let sched := { s.sched with lock := update s.sched.lock sem.lock spinlockInit }
  threadlistCleanup sched.links (.wcThreads sem.wchan)
  .ok { s.setSem a none with sched := sched }

/-- `thread_exit`, from `proc_remthread` on. -/
def exitEnd (s : Kernel T) : Except Fault (SysEnd × Kernel T) := do
  let t := s.sched.thisthread
  let th ← s.sched.get t
  let proc := th.proc.getD 0
  let sched ← procRemthread s.sched t (decide (t ∈ s.threads proc))
  let th ← sched.get t
  assert "thisthread->proc == NULL" th.proc.isNone
  threadCheckstack sched t
  assert "thiscpu->status != CPU_IDLE" (decide (sched.status ≠ .idle))
  let sched ← threadSwitch sched .zombie none none
  .ok (.terminated, { s with
    sched := sched, threads := update s.threads proc ((s.threads proc).erase t) })

/-- `thread_exit` destroys the semaphores. -/
def exitDestroy (s : Kernel T) (t : T) : Except Fault (Kernel T) := do
  let s ← s.semaphoreDestroy (s.info t).psem
  let s ← s.semaphoreDestroy (s.info t).csem
  let info := { s.info t with psem := none, csem := none, parent := none }
  .ok { s with info := update s.info t info }

end Kernel

/-! ## The property -/

section
variable {s : Kernel T} {ls : ListId Nat → List T}

/-- The kernel after `V`. -/
def Kernel.raised (s : Kernel T) (a : Nat) (sem : KSem) (sched : Sched T Nat Nat) : Kernel T :=
  { s with sched := sched, sem := update s.sem a (some { sem with count := sem.count + 1 }) }

end

/-! ## The dispatcher -/

section
variable {s : Kernel T} {ls : ListId Nat → List T}

end

/-! ## A user program -/

end JinxOS
