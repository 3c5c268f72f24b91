import JinxOS.Thread.Thread

/-!
# Wait channels

The code of `synch/wchan.c` that wakes threads.  `wchan_wakeall` first moves all sleepers to a list
of its own and then makes them runnable one after the other.

`wchan_sleep` is `thread_switch` with `S_SLEEP` followed, when the thread runs again, by an acquire
of the same spinlock.
-/

namespace JinxOS

variable {T W K : Type} [DecidableEq T] [DecidableEq W]

/-- `wchan_wakeone`. -/
def wchanWakeone (s : Sched T W K) (wc : W) (lk : K) : Except Fault (Sched T W K) := do
  assert "spinlock_held(lk)" (spinlockHeld s.cpu (s.lock lk))
  let (target, s) ← s.remhead (.wcThreads wc)
  match target with
  | none => .ok s
  | some target => threadMakeRunnable s target false

/-- The first loop of `wchan_wakeall`.  As in `thread_exorcise`, the count of the list bounds the
number of rounds. -/
def wchanGrab (wc : W) : Nat → Sched T W K → Except Fault (Sched T W K)
  | 0, _ => .error .diverges
  | fuel + 1, s => do
    let (target, s) ← s.remhead (.wcThreads wc)
    match target with
    | none => .ok s
    | some target => wchanGrab wc fuel (← s.addtail .wakeallList target)

/-- The second loop of `wchan_wakeall`. -/
def wchanWakeGrabbed : Nat → Sched T W K → Except Fault (Sched T W K)
  | 0, _ => .error .diverges
  | fuel + 1, s => do
    let (target, s) ← s.remhead .wakeallList
    match target with
    | none => .ok s
    | some target => wchanWakeGrabbed fuel (← threadMakeRunnable s target false)

/-- `wchan_wakeall`. -/
def wchanWakeall (s : Sched T W K) (wc : W) (lk : K) : Except Fault (Sched T W K) := do
  assert "spinlock_held(lk)" (spinlockHeld s.cpu (s.lock lk))
  let s := { s with links := threadlistInit s.links .wakeallList }
  let s ← wchanGrab wc (s.links.count (.wcThreads wc) + 1) s
  let s ← wchanWakeGrabbed (s.links.count .wakeallList + 1) s
  threadlistCleanup s.links .wakeallList
  .ok s

end JinxOS
