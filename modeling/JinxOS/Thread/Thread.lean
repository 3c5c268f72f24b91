import JinxOS.Synch.Spinlock
import JinxOS.Thread.ThreadList

/-!
# Threads

The code of `thread/thread.c` that moves threads between lists, on one CPU.  A thread is a pointer;
the scheduler's state says which pointers are `struct thread`s that have been allocated and not been
freed, and an access to any other pointer is a fault.

The run queue `active_threads` and `zombie_threads` belong to the CPU, and each wait channel has a
list.  `wchan_wakeall` has a fourth kind, a list on its stack.

The page directory, the saved registers, the names and the semaphores for joining are not here: the
functions below do not look at them, except that `thread_switch` follows `next->proc` to the page
directory.  A stack is known by its address.  The four assertions of `thread_checkstack` about the
words at its bottom are assignments, which never fail; the first assertion is the one that counts.
-/

namespace JinxOS

open Function (update)

/-- `threadstate_t`. -/
inductive ThreadState
  /-- `S_RUN`. -/
  | run
  /-- `S_READY`. -/
  | ready
  /-- `S_SLEEP`. -/
  | sleep
  /-- `S_ZOMBIE`. -/
  | zombie
  deriving DecidableEq, Repr

/-- `struct thread`, apart from its list node. -/
structure Thread where
  state : ThreadState
  /-- The CPU the thread runs on. -/
  cpu : Option Nat
  /-- The process the thread belongs to. -/
  proc : Option Nat
  /-- The page of the stack. -/
  stack : Option Nat
  deriving DecidableEq, Repr

/-- The lists of threads. -/
inductive ListId (W : Type)
  /-- `thiscpu->active_threads`. -/
  | activeThreads
  /-- `thiscpu->zombie_threads`. -/
  | zombieThreads
  /-- `wc->wc_threads`. -/
  | wcThreads (wc : W)
  /-- The private list of `wchan_wakeall`. -/
  | wakeallList
  deriving DecidableEq

/-- `thiscpu->status`. -/
inductive CpuStatus
  | off
  | started
  | halted
  | idle
  deriving DecidableEq, Repr

/-- The threads `T` and where they are, with wait channels `W`. -/
structure Threads (T W : Type) where
  thisthread : T
  bootthread : T
  /-- The `struct thread`s that are allocated. -/
  thread : T → Option Thread
  /-- The list nodes. -/
  links : Links T (ListId W)
  /-- History: the threads as they were made runnable. -/
  madeRunnable : List T
  /-- History: the threads as they were given the CPU. -/
  dispatched : List T
  /-- History: the threads as they went to sleep on each channel. -/
  slept : W → List T

/-- The scheduler's state: the threads, the CPU and the spinlocks. -/
structure Sched (T W K : Type) extends Threads T W where
  /-- The CPU. -/
  cpu : Cpu
  status : CpuStatus
  activeThreadsLock : Spinlock
  /-- The spinlocks of the wait channels' owners. -/
  lock : K → Spinlock
  /-- The spinlocks of the processes. -/
  procLock : Nat → Spinlock

variable {T W K : Type} [DecidableEq T] [DecidableEq W] [DecidableEq K]

/-! ## Memory and locks -/

/-- What `t` points to. -/
def Sched.get (s : Sched T W K) (t : T) : Except Fault Thread :=
  match s.thread t with
  | none => .error .useAfterFree
  | some th => .ok th

/-- Assignments to fields of `t`. -/
def Sched.set (s : Sched T W K) (t : T) (th : Thread) : Sched T W K :=
  { s with thread := update s.thread t (some th) }

/-- `spinlock_acquire(&thiscpu->active_threads_lock)`. -/
def Sched.acquireActive (s : Sched T W K) : Except Fault (Sched T W K) := do
  let (cpu, lk) ← spinlockAcquire s.cpu s.activeThreadsLock
  .ok { s with cpu := cpu, activeThreadsLock := lk }

/-- `spinlock_release(&thiscpu->active_threads_lock)`. -/
def Sched.releaseActive (s : Sched T W K) : Except Fault (Sched T W K) := do
  let (cpu, lk) ← spinlockRelease s.cpu s.activeThreadsLock
  .ok { s with cpu := cpu, activeThreadsLock := lk }

/-- `spinlock_acquire(lk)`. -/
def Sched.acquire (s : Sched T W K) (k : K) : Except Fault (Sched T W K) := do
  let (cpu, lk) ← spinlockAcquire s.cpu (s.lock k)
  .ok { s with cpu := cpu, lock := update s.lock k lk }

/-- `spinlock_release(lk)`. -/
def Sched.release (s : Sched T W K) (k : K) : Except Fault (Sched T W K) := do
  let (cpu, lk) ← spinlockRelease s.cpu (s.lock k)
  .ok { s with cpu := cpu, lock := update s.lock k lk }

/-- `spinlock_acquire(&proc->lock)` and `spinlock_release(&proc->lock)`, around code that works on
the process only. -/
def Sched.lockProc (s : Sched T W K) (proc : Nat) : Except Fault (Sched T W K) := do
  let (cpu, lk) ← spinlockAcquire s.cpu (s.procLock proc)
  let (cpu, lk) ← spinlockRelease cpu lk
  .ok { s with cpu := cpu, procLock := update s.procLock proc lk }

/-- `threadlist_addtail`. -/
def Sched.addtail (s : Sched T W K) (l : ListId W) (t : T) : Except Fault (Sched T W K) := do
  .ok { s with links := ← threadlistAddtail s.links l t }

/-- `threadlist_remhead`. -/
def Sched.remhead (s : Sched T W K) (l : ListId W) : Except Fault (Option T × Sched T W K) := do
  let (t, links) ← threadlistRemhead s.links l
  .ok (t, { s with links := links })

/-! ## Creating and destroying threads -/

/-- `assert(cli() == false)`. -/
def Sched.assertOff (s : Sched T W K) : Except Fault (Sched T W K) := do
  let (on, cpu) := cli s.cpu
  assert "cli() == false" !on
  .ok { s with cpu := cpu }

/-- `thread_checkstack`. -/
def threadCheckstack (s : Sched T W K) (t : T) : Except Fault Unit := do
  let th ← s.get t
  assert "thisthread == bootthread || thread->stack != NULL"
    (s.thisthread == s.bootthread || th.stack.isSome)

/-- `thread_getstack`, where `page` is what `page_get` returns. -/
def threadGetstack (page : Option Nat) : Except Fault Nat :=
  match page with
  | none => .error (.panic "OOM: no memory available for stack creation")
  | some a => .ok a

/-- `thread_returnstack`. -/
def threadReturnstack (stack : Option Nat) : Except Fault Unit :=
  assert "stack_addr != NULL" stack.isSome

/-- `thread_create`, where `p` is what `kmalloc` returns and `named` says whether there is memory
for the name as well. -/
def threadCreate (s : Sched T W K) (p : Option T) (named : Bool) : Option T × Sched T W K :=
  match p with
  | none => (none, s)
  | some t =>
    if named then
      let s := s.set t ⟨.ready, none, none, none⟩
      (some t, { s with links := threadlistnodeInit s.links t })
    else (none, s)

/-- `thread_destroy`. -/
def threadDestroy (s : Sched T W K) (t : T) : Except Fault (Sched T W K) := do
  let s ← s.assertOff
  assert "thread != thisthread" (t != s.thisthread)
  let th ← s.get t
  assert "thread->state != S_RUN" (th.state != .run)
  assert "thread->proc == NULL" th.proc.isNone
  threadReturnstack th.stack
  threadlistnodeCleanup s.links t
  .ok { s with thread := update s.thread t none }

/-- The loop of `thread_exorcise`.  Each round lowers `tl_count`, which `threadlist_remhead` asserts
to be positive, so the count bounds the number of rounds. -/
def threadExorciseLoop : Nat → Sched T W K → Except Fault (Sched T W K)
  | 0, _ => .error .diverges
  | fuel + 1, s => do
    let (t, s) ← s.remhead .zombieThreads
    match t with
    | none => .ok s
    | some t =>
      assert "thread != thisthread" (t != s.thisthread)
      let th ← s.get t
      assert "thread->state == S_ZOMBIE" (th.state == .zombie)
      threadExorciseLoop fuel (← threadDestroy s t)

/-- `thread_exorcise`. -/
def threadExorcise (s : Sched T W K) : Except Fault (Sched T W K) := do
  let s ← s.assertOff
  threadExorciseLoop (s.links.count .zombieThreads + 1) s

/-! ## Running threads -/

/-- What `thread_make_runnable` does about the lock of the run queue at its start. -/
def Sched.enterActive (s : Sched T W K) (holdingLock : Bool) : Except Fault (Sched T W K) :=
  if holdingLock then do
    assert "spinlock_held(&cpu->active_threads_lock)" (spinlockHeld s.cpu s.activeThreadsLock)
    .ok s
  else s.acquireActive

/-- What `thread_make_runnable` does about the lock of the run queue at its end. -/
def Sched.leaveActive (s : Sched T W K) (holdingLock : Bool) : Except Fault (Sched T W K) :=
  if holdingLock then .ok s else s.releaseActive

/-- `thread_make_runnable`. -/
def threadMakeRunnable (s : Sched T W K) (t : T) (holdingLock : Bool) :
    Except Fault (Sched T W K) := do
  let (on, cpu) := cli s.cpu
  let s := { s with cpu := cpu }
  let th ← s.get t
  let _ ← deref th.cpu
  let s := s.set t { th with state := .ready }
  let s ← s.enterActive holdingLock
  let s ← s.addtail .activeThreads t
  let s := { s with madeRunnable := s.madeRunnable ++ [t] }
  if s.status = .idle then .error (.panic "CPU_IDLE")
  else
    let s ← s.leaveActive holdingLock
    .ok { s with cpu := ifx s.cpu on }

/-- What the rest of the kernel answers while `thread_fork` runs. -/
structure ForkEnv (T : Type) where
  /-- The pointer from `kmalloc`. -/
  thread : Option T
  /-- Whether `strdup` finds memory for the name. -/
  named : Bool
  /-- The page from `page_get`. -/
  page : Option Nat
  /-- Whether `thread_out` is not null. -/
  joinable : Bool
  /-- Whether `semaphore_create` finds memory for `csem`. -/
  csem : Bool
  /-- Whether `semaphore_create` finds memory for `psem`. -/
  psem : Bool
  /-- The argument `proc`. -/
  proc : Option Nat
  /-- The result of `threadarray_add` in `proc_addthread`. -/
  result : Nat

/-- `proc_addthread`, where `result` is what `threadarray_add` returns. -/
def procAddthread (s : Sched T W K) (proc : Option Nat) (t : T) (result : Nat) :
    Except Fault (Nat × Sched T W K) := do
  let th ← s.get t
  assert "t->proc == NULL" th.proc.isNone
  let proc ← deref proc
  let s ← s.lockProc proc
  if result ≠ 0 then .ok (result, s)
  else .ok (0, s.set t { th with proc := some proc })

/-- `proc_remthread`, where `found` says whether the thread is in the array of its process. -/
def procRemthread (s : Sched T W K) (t : T) (found : Bool) : Except Fault (Sched T W K) := do
  let th ← s.get t
  assert "proc != NULL" th.proc.isSome
  let proc ← deref th.proc
  let s ← s.lockProc proc
  if found then .ok (s.set t { th with proc := none })
  else .error (.panic "Thread (%p) has escaped from its process (%p)\n")

/-- The part of `thread_fork` that comes after `thread_create`, with `on` the interrupt flag on
entry.  `thread_getstack` panics when it has no stack, so its result is not null; of the semaphores
only whether there is memory for both matters, since the paths without destroy the thread alike. -/
def threadForkNew (s : Sched T W K) (e : ForkEnv T) (on : Bool) (t : T) :
    Except Fault (Nat × Sched T W K) := do
  let stack ← threadGetstack e.page
  let th ← s.get t
  let s := s.set t { th with stack := some stack }
  threadCheckstack s t
  let th ← s.get t
  let s := s.set t { th with cpu := s.cpu.thiscpu }
  if e.joinable && !(e.csem && e.psem) then
    .ok (enomem, ← threadDestroy s t)
  else
    let this ← s.get s.thisthread
    let (result, s) ← procAddthread s (if e.proc.isSome then e.proc else this.proc) t e.result
    if result ≠ 0 then
      .ok (result, ← threadDestroy s t)
    else
      let s ← threadMakeRunnable s t false
      .ok (0, { s with cpu := ifx s.cpu on })

/-- `thread_fork`. -/
def threadFork (s : Sched T W K) (e : ForkEnv T) : Except Fault (Nat × Sched T W K) :=
  let (on, cpu) := cli s.cpu
  match threadCreate { s with cpu := cpu } e.thread e.named with
  | (none, s) => .ok (enomem, s)
  | (some t, s) => threadForkNew s e on t

/-- The first half of `thread_switch`, which finds a place for the current thread.  The answer says
whether `thread_switch` goes on. -/
def threadSwitchLeave (s : Sched T W K) (newstate : ThreadState) (wc : Option W) (lk : Option K) :
    Except Fault (Bool × Sched T W K) := do
  match newstate with
  | .run => .error (.panic "Illegal S_RUN in thread_switch\n")
  | .ready =>
    if threadlistIsempty s.links .activeThreads then .ok (false, ← s.releaseActive)
    else .ok (true, ← threadMakeRunnable s s.thisthread true)
  | .sleep =>
    let wc ← deref wc
    let s ← s.addtail (.wcThreads wc) s.thisthread
    let s := { s with slept := update s.slept wc (s.slept wc ++ [s.thisthread]) }
    let lk ← deref lk
    .ok (true, ← s.release lk)
  | .zombie => .ok (true, ← s.addtail .zombieThreads s.thisthread)

/-- The second half of `thread_switch`, which gives the CPU to the next thread.  `cpu_idle` panics,
so the loop that waits for a thread makes one round. -/
def threadSwitchNext (s : Sched T W K) (newstate : ThreadState) : Except Fault (Sched T W K) := do
  let this ← s.get s.thisthread
  let s := s.set s.thisthread { this with state := newstate }
  let s := { s with status := .idle }
  let (next, s) ← s.remhead .activeThreads
  match next with
  | none => do
    let _ ← s.releaseActive
    .error (.panic "cpu_idle on cpunum %u")
  | some next =>
    let s := { s with status := .started }
    let th ← s.get next
    let s := s.set next { th with state := .run }
    let _ ← deref th.proc
    let s ← s.releaseActive
    .ok { s with thisthread := next, dispatched := s.dispatched ++ [next] }

/-- `thread_switch`. -/
def threadSwitch (s : Sched T W K) (newstate : ThreadState) (wc : Option W) (lk : Option K) :
    Except Fault (Sched T W K) := do
  let s ← s.assertOff
  let this ← s.get s.thisthread
  assert "thisthread->cpu == thiscpu->self" (this.cpu == s.cpu.thiscpu)
  let s ← (if newstate ≠ .sleep then threadExorcise s else .ok s)
  if s.status = .idle then .ok s
  else
    threadCheckstack s s.thisthread
    let s ← s.acquireActive
    let (goesOn, s) ← threadSwitchLeave s newstate wc lk
    if goesOn then threadSwitchNext s newstate else .ok s

end JinxOS
