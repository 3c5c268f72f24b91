import JinxOS.Synch.Semaphore
import JinxOS.Synch.Spinlock

/-!
# Joining a thread

The rendezvous of `thread_join` and `thread_exit` in `thread/thread.c`.  A joinable thread is forked
with two semaphores.  When it exits it raises `psem` and waits on `csem`; its parent waits on
`psem`, raises `csem`, and reads the return value from the thread structure *after* that, when the
child is free to go on, to destroy the two semaphores and to become a zombie that anybody may
destroy.

That the parent is not too late depends on the interrupt flag.  Both functions run with interrupts
disabled, so on one CPU nobody gets in between unless a thread goes to sleep in `P`.  The model
therefore has the flag, the static `iflag` of the spinlocks that every `P` and `V` saves it in, and
the copy of it that a thread's saved context carries.  The two functions are cut at every access to
what parent and child share, and a timer interrupt can take the CPU away at every cut at which the
flag is set.

A thread structure or a semaphore that has been freed is gone, and an access to it is a fault.  The
functions of `semaphore.c` are those of `JinxOS.Synch.Semaphore`.
-/

namespace JinxOS

open Function (update)

/-! ## The state -/

/-- A semaphore for joining, named by the thread that it has been created for. -/
inductive SemId (T : Type)
  /-- `psem`, which the parent waits on. -/
  | psem (c : T)
  /-- `csem`, which the child waits on. -/
  | csem (c : T)
  deriving DecidableEq

/-- What joining uses of `struct thread`. -/
structure JoinThread (T : Type) where
  rval : Int
  parent : Option T
  psem : Option (SemId T)
  csem : Option (SemId T)

/-- Where a thread is.  In `thread_join` the first two arguments are the child and the saved
interrupt flag `on`. -/
inductive JoinPc (T : Type)
  /-- There is no such thread yet. -/
  | absent
  /-- At the start of `thread_start`. -/
  | start
  /-- In its own code. -/
  | user
  /-- `thread_join` has tested its arguments. -/
  | joinEntered (c : T)
  /-- `thread_join` is about to call `P(thread->psem)`. -/
  | joinOff (c : T) (on : Bool)
  /-- `thread_join` is asleep in that call. -/
  | joinAsleep (c : T) (on : Bool) (sem : SemId T)
  /-- `thread_join` is about to call `V(thread->csem)`. -/
  | joinDown (c : T) (on : Bool)
  /-- `thread_join` is about to read `thread->rval`. -/
  | joinUp (c : T) (on : Bool)
  /-- `thread_join` is about to clear `thread->parent`, and to return. -/
  | joinRead (c : T) (on : Bool)
  /-- `thread_exit` is about to call `V(thisthread->psem)`. -/
  | exitUp
  /-- `thread_exit` is about to call `P(thisthread->csem)`. -/
  | exitOff
  /-- `thread_exit` is asleep in that call. -/
  | exitAsleep (sem : SemId T)
  /-- `thread_exit` is about to destroy the semaphores. -/
  | exitDown
  /-- `thread_exit` is about to leave the process and to call `thread_switch(S_ZOMBIE)`. -/
  | exitEnd
  /-- A zombie, or what is left of it. -/
  | zombie
  deriving DecidableEq

/-- What has happened to a thread.  No code reads this. -/
structure JoinHist (T : Type) where
  /-- `thread_fork` has used this name. -/
  made : Bool
  /-- The thread that forked it, if it is joinable. -/
  parent : Option T
  /-- The parent has called `thread_join`. -/
  called : Bool
  /-- The parent's `P(psem)` has completed. -/
  collected : Bool
  /-- The parent's `V(csem)` has completed. -/
  released : Bool
  /-- The value that the thread passed to `thread_exit`. -/
  passed : Option Int
  /-- The value that the parent's `thread_join` has stored in `*ret_out`. -/
  returned : Option Int

/-- Nothing has happened yet. -/
def JoinHist.none {T : Type} : JoinHist T := ⟨false, .none, false, false, false, .none, .none⟩

/-- The threads of one CPU. -/
structure JoinSys (T : Type) where
  /-- `thisthread`, or nothing while `thread_switch` looks for the next thread. -/
  cur : Option T
  /-- The CPU. -/
  cpu : Cpu
  /-- The interrupt flag in a thread's saved context. -/
  saved : T → Bool
  /-- The thread structures that are allocated. -/
  thread : T → Option (JoinThread T)
  /-- The semaphores that are allocated. -/
  sem : SemId T → Option (Semaphore T)
  /-- Where the threads are. -/
  pc : T → JoinPc T
  /-- History. -/
  hist : T → JoinHist T

variable {T : Type} [DecidableEq T]

namespace JoinSys

/-- A thread goes on to a point. -/
def goto (s : JoinSys T) (t : T) (p : JoinPc T) : JoinSys T :=
  { s with pc := update s.pc t p }

/-- An assignment to a thread structure, or its deallocation. -/
def setThread (s : JoinSys T) (t : T) (th : Option (JoinThread T)) : JoinSys T :=
  { s with thread := update s.thread t th }

/-- An assignment to a semaphore, or its deallocation. -/
def setSem (s : JoinSys T) (id : SemId T) (sem : Option (Semaphore T)) : JoinSys T :=
  { s with sem := update s.sem id sem }

/-- An entry in the history. -/
def note (s : JoinSys T) (t : T) (h : JoinHist T) : JoinSys T :=
  { s with hist := update s.hist t h }

/-- An access to a thread structure. -/
def getThread (s : JoinSys T) (t : T) : Except Fault (JoinThread T) :=
  match s.thread t with
  | none => .error .useAfterFree
  | some th => .ok th

/-- An access to a semaphore. -/
def getSem (s : JoinSys T) (id : SemId T) : Except Fault (Semaphore T) :=
  match s.sem id with
  | none => .error .useAfterFree
  | some sem => .ok sem

end JoinSys

/-! ## Semaphores, interrupts and switches -/

/-- A section of `P`: the first one of the call, or one after a sleep. -/
def semaphoreSection (sem : Semaphore T) (t : T) (again : Bool) :
    Except Fault (Bool × Semaphore T) :=
  if again then semaphorePAgain sem t else semaphoreP sem t

/-- The CPU after the part of `thread_switch` that puts a thread to sleep: it takes the lock of the
run queue, and gives up the lock of the channel and that of the run queue. -/
def Cpu.switched (c : Cpu) : Cpu := c.acquired.released.released

/-- The CPU after `thread_make_runnable`. -/
def Cpu.madeRunnable (c : Cpu) : Cpu :=
  let (on, c) := cli c
  ifx c.acquired.released on

/-- A section of `P(sem)`.  A thread that goes to sleep does so in a trap, which saves the flag. -/
def JoinSys.p (s : JoinSys T) (t : T) (id : SemId T) (again : Bool) :
    Except Fault (Bool × JoinSys T) := do
  let sem ← s.getSem id
  let (b, sem) ← semaphoreSection sem t again
  let s := s.setSem id (some sem)
  let cpu := s.cpu.acquired
  if b then .ok (true, { s with cpu := cpu.released })
  else .ok (false, { s with
    cpu := cpu.switched, saved := update s.saved t cpu.intr, cur := none })

/-- `V(sem)`. -/
def JoinSys.v (s : JoinSys T) (id : SemId T) : Except Fault (JoinSys T) := do
  let sem ← s.getSem id
  let cpu := s.cpu.acquired
  let cpu := if sem.wchan.asleep = [] then cpu else cpu.madeRunnable
  let sem ← semaphoreV sem
  .ok { s.setSem id (some sem) with cpu := cpu.released }

/-- `semaphore_create(name, 0)`. -/
def JoinSys.semaphoreCreate (s : JoinSys T) (id : SemId T) : JoinSys T :=
  s.setSem id (some ⟨0, .empty⟩)

/-- `semaphore_destroy`, with the test of `threadlist_cleanup` that nobody sleeps on the channel. -/
def JoinSys.semaphoreDestroy (s : JoinSys T) (id : SemId T) : Except Fault (JoinSys T) := do
  let sem ← s.getSem id
  assert "tl->tl_head.tln_next == &tl->tl_tail" sem.wchan.asleep.isEmpty
  .ok (s.setSem id none)

/-- `thread_exorcise`: all zombies are destroyed. -/
def JoinSys.threadExorcise (s : JoinSys T) : JoinSys T :=
  { s with thread := fun u => if s.pc u = .zombie then none else s.thread u }

/-! ## Forking -/

/-- What the calls that `thread_fork` makes return. -/
structure ForkOutcome where
  /-- `thread_create` returns a thread. -/
  created : Bool
  /-- The first `semaphore_create` returns a semaphore. -/
  csem : Bool
  /-- The second `semaphore_create` returns a semaphore. -/
  psem : Bool
  /-- `proc_addthread` succeeds. -/
  added : Bool

/-- The end of `thread_fork`, for a thread that has been added to its process. -/
def forkRunnable (s : JoinSys T) (t c : T) (joinable on : Bool) : JoinSys T :=
  { (s.goto c .start).note c { s.hist c with parent := if joinable then some t else none } with
    cpu := ifx s.cpu on
    saved := update s.saved c false }

/-- `thread_fork` by the thread `t`, which makes the thread `c`; `joinable` says that `thread_out`
is not null.  The paths that return an error leave interrupts off. -/
def forkJoin (s : JoinSys T) (t c : T) (joinable : Bool) (e : ForkOutcome) :
    Except Fault (JoinSys T) := do
  let (on, cpu) := cli s.cpu
  let s := { s.note c { s.hist c with made := true } with cpu := cpu }
  if !e.created then .ok s
  else if !joinable then
    let s := s.setThread c (some ⟨-1, none, none, none⟩)
    if e.added then .ok (forkRunnable s t c joinable on) else .ok (s.setThread c none)
  else
    let s := s.setThread c (some ⟨-1, some t, none, none⟩)
    if !e.csem then .ok (s.setThread c none)
    else
      let s := (s.semaphoreCreate (.csem c)).setThread c (some ⟨-1, some t, none, some (.csem c)⟩)
      if !e.psem then do
        let s ← s.semaphoreDestroy (.csem c)
        .ok (s.setThread c none)
      else
        let s := (s.semaphoreCreate (.psem c)).setThread c
          (some ⟨-1, some t, some (.psem c), some (.csem c)⟩)
        if e.added then .ok (forkRunnable s t c joinable on)
        else do
          let s ← s.semaphoreDestroy (.psem c)
          let s ← s.semaphoreDestroy (.csem c)
          .ok (s.setThread c none)

/-! ## Joining and exiting -/

/-- `thread_join`, up to the test of its arguments. -/
def joinEnter (s : JoinSys T) (t c : T) : Except Fault (JoinSys T) := do
  let th ← s.getThread c
  assert "thread->parent != NULL" th.parent.isSome
  .ok ((s.goto t (.joinEntered c)).note c { s.hist c with called := true })

/-- `thread_join`, up to the call of `P`.  The branch that returns `EDEADLK` leaves interrupts off.
-/
def joinCheck (s : JoinSys T) (t c : T) : Except Fault (JoinSys T) := do
  let (on, cpu) := cli s.cpu
  let s := { s with cpu := cpu }
  if c = t then .ok (s.goto t .user)
  else do
    let th ← s.getThread c
    assert "thread->parent == thisthread" (th.parent == some t)
    .ok (s.goto t (.joinOff c on))

/-- A section of `P(thread->psem)` in `thread_join`. -/
def joinWait (s : JoinSys T) (t c : T) (on : Bool) (id : SemId T) (again : Bool) :
    Except Fault (JoinSys T) := do
  let (b, s) ← s.p t id again
  if b then .ok ((s.goto t (.joinDown c on)).note c { s.hist c with collected := true })
  else .ok (s.goto t (.joinAsleep c on id))

/-- `V(thread->csem)` in `thread_join`. -/
def joinSignal (s : JoinSys T) (t c : T) (on : Bool) : Except Fault (JoinSys T) := do
  let th ← s.getThread c
  let id ← deref th.csem
  let s ← s.v id
  .ok ((s.goto t (.joinUp c on)).note c { s.hist c with released := true })

/-- `*ret_out = thread->rval` in `thread_join`. -/
def joinRead (s : JoinSys T) (t c : T) (on : Bool) : Except Fault (JoinSys T) := do
  let th ← s.getThread c
  .ok ((s.goto t (.joinRead c on)).note c { s.hist c with returned := some th.rval })

/-- The end of `thread_join`. -/
def joinReturn (s : JoinSys T) (t c : T) (on : Bool) : Except Fault (JoinSys T) := do
  let th ← s.getThread c
  let s := s.setThread c (some { th with parent := none })
  .ok { s.goto t .user with cpu := ifx s.cpu on }

/-- `thread_exit(ret)`, up to the test of `parent`.  It is called with interrupts off. -/
def exitEnter (s : JoinSys T) (t : T) (ret : Int) : Except Fault (JoinSys T) := do
  let (_, cpu) := cli s.cpu
  let th ← s.getThread t
  let s := s.setThread t (some { th with rval := ret })
  let s := s.note t { s.hist t with passed := some ret }
  .ok { s.goto t (if th.parent.isSome then .exitUp else .exitEnd) with cpu := cpu }

/-- `V(thisthread->psem)` in `thread_exit`. -/
def exitSignal (s : JoinSys T) (t : T) : Except Fault (JoinSys T) := do
  let th ← s.getThread t
  let id ← deref th.psem
  let s ← s.v id
  .ok (s.goto t .exitOff)

/-- A section of `P(thisthread->csem)` in `thread_exit`. -/
def exitWait (s : JoinSys T) (t : T) (id : SemId T) (again : Bool) : Except Fault (JoinSys T) := do
  let (b, s) ← s.p t id again
  .ok (s.goto t (if b then .exitDown else .exitAsleep id))

/-- `thread_exit` destroys the semaphores. -/
def exitDestroy (s : JoinSys T) (t : T) : Except Fault (JoinSys T) := do
  let th ← s.getThread t
  let psem ← deref th.psem
  let s ← s.semaphoreDestroy psem
  let csem ← deref th.csem
  let s ← s.semaphoreDestroy csem
  .ok ((s.setThread t (some { th with psem := none, csem := none, parent := none })).goto t
    .exitEnd)

/-- The end of `thread_exit`: the thread becomes a zombie, after it has destroyed the others. -/
def exitSwitch (s : JoinSys T) (t : T) : Except Fault (JoinSys T) := do
  let _ ← s.getThread t
  .ok { s.threadExorcise.goto t .zombie with cur := none, cpu := s.cpu.acquired.released }

/-- The current thread goes on. -/
def joinGo (s : JoinSys T) (t : T) : Except Fault (JoinSys T) :=
  match s.pc t with
  | .start => .ok { s.threadExorcise.goto t .user with cpu := { s.cpu with intr := true } }
  | .joinEntered c => joinCheck s t c
  | .joinOff c on => do
    let th ← s.getThread c
    let id ← deref th.psem
    joinWait s t c on id false
  | .joinAsleep c on id => joinWait s t c on id true
  | .joinDown c on => joinSignal s t c on
  | .joinUp c on => joinRead s t c on
  | .joinRead c on => joinReturn s t c on
  | .exitUp => exitSignal s t
  | .exitOff => do
    let th ← s.getThread t
    let id ← deref th.csem
    exitWait s t id false
  | .exitAsleep id => exitWait s t id true
  | .exitDown => exitDestroy s t
  | .exitEnd => exitSwitch s t
  | _ => .ok s

/-! ## Schedules -/

/-- What can happen next. -/
inductive JoinOp (T : Type)
  /-- The current thread calls `thread_fork`. -/
  | fork (c : T) (joinable : Bool) (e : ForkOutcome)
  /-- The current thread calls `thread_join`. -/
  | join (c : T)
  /-- The current thread calls `thread_exit`. -/
  | exit (ret : Int)
  /-- The current thread goes on in a call. -/
  | go
  /-- `thread_switch(S_READY)`: the current thread yields, or a timer interrupt comes in. -/
  | yield
  /-- `thread_switch` has found a thread. -/
  | dispatch (u : T)

/-- A thread has been woken on a semaphore. -/
def JoinSys.Woken (s : JoinSys T) (t : T) (id : SemId T) : Prop :=
  match s.sem id with
  | none => False
  | some sem => t ∈ sem.wchan.woken

/-- `thread_switch` can choose the thread. -/
def JoinSys.Runnable (s : JoinSys T) (t : T) : Prop :=
  match s.pc t with
  | .absent => False
  | .zombie => False
  | .joinAsleep _ _ id => s.Woken t id
  | .exitAsleep id => s.Woken t id
  | _ => True

/-- The current thread is at a point where it goes on by itself. -/
def JoinPc.InCall : JoinPc T → Prop
  | .absent => False
  | .user => False
  | .zombie => False
  | _ => True

/-- The outcome of a step by the thread `t`. -/
def joinStep (s : JoinSys T) (t : T) : JoinOp T → Except Fault (JoinSys T)
  | .fork c joinable e => forkJoin s t c joinable e
  | .join c => joinEnter s t c
  | .exit ret => exitEnter s t ret
  | .go => joinGo s t
  | .yield => .ok { s.threadExorcise with
      cur := none
      saved := update s.saved t s.cpu.intr
      cpu := { s.cpu with intr := false }.acquired.released }
  | .dispatch u => .ok { s with cur := some u, cpu := { s.cpu with intr := s.saved u } }

/-- When a step can be taken.  A thread calls `thread_join` at most once on each of its children.  A
thread yields in its own code, and is interrupted when interrupts are on. -/
def JoinOp.Allowed (s : JoinSys T) (t : T) : JoinOp T → Prop
  | .fork c _ _ => s.cur = some t ∧ s.pc t = .user ∧ (s.hist c).made = false
  | .join c => s.cur = some t ∧ s.pc t = .user ∧ (s.hist c).parent = some t ∧
      (s.hist c).called = false
  | .exit _ => s.cur = some t ∧ s.pc t = .user
  | .go => s.cur = some t ∧ (s.pc t).InCall
  | .yield => s.cur = some t ∧ (s.pc t = .user ∨ s.cpu.intr = true)
  | .dispatch u => s.cur = none ∧ s.Runnable u

/-- One step that returns. -/
def JoinStep (s : JoinSys T) (a : T × JoinOp T) (s' : JoinSys T) : Prop :=
  a.2.Allowed s a.1 ∧ joinStep s a.1 a.2 = .ok s'

/-- The boot thread runs, and there are no others. -/
structure JoinBoot (s : JoinSys T) (boot : T) : Prop where
  cur : s.cur = some boot
  thread : s.thread = update (fun _ => none) boot (some ⟨-1, none, none, none⟩)
  sem : s.sem = fun _ => none
  pc : s.pc = update (fun _ => .absent) boot .user
  hist : s.hist = update (fun _ => .none) boot { JoinHist.none with made := true }

/-- A run from boot. -/
def JoinRun (tr : List (JoinSys T × (T × JoinOp T))) (s : JoinSys T) : Prop :=
  Run (fun s => ∃ boot, JoinBoot s boot) JoinStep tr s

end JinxOS
