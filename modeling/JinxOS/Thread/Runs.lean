import JinxOS.Lib.Runs
import JinxOS.Thread.Scheduler

/-!
# Runs of the scheduler

One CPU from boot on.  The current thread calls the scheduler's functions, in any order and with any
arguments; between the calls it takes and releases spinlocks, turns interrupts on and off, and
leaves its process.  A thread that is switched to goes on from wherever it was, which is to say that
it makes any of these calls next.

`schedRun_conserved` is the result: in every state that such a run reaches, no thread is lost or on
two lists, and threads run and wake up in order.
-/

namespace JinxOS

variable {T W K : Type} [DecidableEq T] [DecidableEq W] [DecidableEq K]

/-- What the current thread can do. -/
inductive SchedOp (T W K : Type)
  /-- Call `thread_fork`. -/
  | fork (e : ForkEnv T)
  /-- Call `thread_switch`. -/
  | switch (newstate : ThreadState) (wc : Option W) (lk : Option K)
  /-- Call `wchan_wakeone`. -/
  | wakeone (wc : W) (lk : K)
  /-- Call `wchan_wakeall`. -/
  | wakeall (wc : W) (lk : K)
  /-- Call `thread_exorcise`. -/
  | exorcise
  /-- Call `spinlock_acquire`. -/
  | acquire (lk : K)
  /-- Call `spinlock_release`. -/
  | release (lk : K)
  /-- Disable interrupts. -/
  | cli
  /-- Enable interrupts. -/
  | sti
  /-- Leave the process, as `thread_exit` does before it calls `thread_switch`. -/
  | remthread (found : Bool)

/-- The outcome of an operation. -/
def schedStep (s : Sched T W K) : SchedOp T W K → Except Fault (Sched T W K)
  | .fork e => do
    let (_, s) ← threadFork s e
    .ok s
  | .switch newstate wc lk => threadSwitch s newstate wc lk
  | .wakeone wc lk => wchanWakeone s wc lk
  | .wakeall wc lk => wchanWakeall s wc lk
  | .exorcise => threadExorcise s
  | .acquire lk => s.acquire lk
  | .release lk => s.release lk
  | .cli => .ok { s with cpu := (cli s.cpu).2 }
  | .sti => .ok { s with cpu := { s.cpu with intr := true } }
  | .remthread found => procRemthread s s.thisthread found

/-- The scheduler's functions are called with interrupts off, and `kmalloc` returns memory that is
not in use. -/
def SchedOp.Allowed (s : Sched T W K) : SchedOp T W K → Prop
  | .fork e => s.cpu.intr = false ∧ ∀ t ∈ e.thread, s.thread t = none
  | .switch .. => s.cpu.intr = false
  | .wakeone .. => s.cpu.intr = false
  | .wakeall .. => s.cpu.intr = false
  | .exorcise => s.cpu.intr = false
  | _ => True

/-- The state that `init_cpu` and `init_proc` leave behind: the boot thread runs, in `S_READY` and
without a stack of its own, and all lists are empty. -/
structure SchedBoot (s : Sched T W K) : Prop where
  links : s.links = Links.empty
  this : s.thisthread = s.bootthread
  /-- It is the only thread, and belongs to the kernel process. -/
  thread : ∃ id proc, s.cpu.thiscpu = some id ∧
    ∀ t, s.thread t = if t = s.bootthread then some ⟨.ready, some id, some proc, none⟩ else none
  status : s.status = .started
  activeThreadsLock : s.activeThreadsLock = spinlockInit
  madeRunnable : s.madeRunnable = []
  dispatched : s.dispatched = []
  slept : ∀ wc, s.slept wc = []

/-- One operation that returns. -/
def SchedStep (s : Sched T W K) (op : SchedOp T W K) (s' : Sched T W K) : Prop :=
  op.Allowed s ∧ schedStep s op = .ok s'

/-- A run of the scheduler from boot, not ended by a panic. -/
def SchedRun (tr : List (Sched T W K × SchedOp T W K)) (s : Sched T W K) : Prop :=
  Run SchedBoot SchedStep tr s

/-- The invariant: only the current thread is in the hand, and the private list of `wchan_wakeall`
is not in use. -/
def SchedInv (s : Sched T W K) : Prop :=
  ∃ ls, s.toThreads.Kept ls [s.thisthread] ∧ ls .wakeallList = []

variable {s : Sched T W K} {tr : List (Sched T W K × SchedOp T W K)}

omit [DecidableEq W] [DecidableEq K] in
theorem schedInv_boot (h : SchedBoot s) : SchedInv s := by
  obtain ⟨id, proc, -, hthread⟩ := h.thread
  refine ⟨fun _ => [], ⟨⟨h.links ▸ listRepr_empty, by simp, ?_, by simp, ?_, by simp⟩, ?_, ?_⟩, rfl⟩
  · simp [hthread, h.this]
  · intro t ht
    by_cases heq : t = s.bootthread
    · simp [heq, h.this]
    · simp [hthread, heq] at ht
  · simp [h.madeRunnable, h.dispatched]
  · simp

theorem schedInv_step {s' : Sched T W K} {op : SchedOp T W K} (h : SchedInv s)
    (hstep : SchedStep s op s') : SchedInv s' := by
  obtain ⟨ls, hkept, hlist⟩ := h
  obtain ⟨hallowed, hrun⟩ := hstep
  cases op with
  | fork e =>
    obtain ⟨⟨r, s1⟩, hrun, hs'⟩ := of_bind hrun
    cases hs'
    obtain ⟨hthis, ls', hkept', hlist'⟩ := threadFork_kept hkept hallowed.2 hrun
    exact ⟨ls', hthis ▸ hkept', hlist'.trans hlist⟩
  | switch newstate wc lk =>
    obtain ⟨ls', hkept', hlist'⟩ := threadSwitch_kept hkept hrun
    exact ⟨ls', hkept', hlist'.trans hlist⟩
  | wakeone wc lk =>
    obtain ⟨hthis, ls', hkept', -, -, hother⟩ := wchanWakeone_kept hkept hrun
    exact ⟨ls', hthis ▸ hkept', (hother _ (by simp) (by simp)).trans hlist⟩
  | wakeall wc lk =>
    obtain ⟨hthis, ls', hkept', -, -, hother⟩ := wchanWakeall_kept hkept hlist hrun
    exact ⟨ls', hthis ▸ hkept', (hother _ (by simp) (by simp)).trans hlist⟩
  | exorcise =>
    obtain ⟨hkept', hthis, -⟩ := threadExorcise_kept hkept hrun
    exact ⟨_, hthis ▸ hkept', (Function.update_of_ne (by simp) _ _).trans hlist⟩
  | acquire lk =>
    have hs' := Sched.acquire_ok hrun
    exact ⟨ls, hs'.symm ▸ hkept, hlist⟩
  | release lk =>
    have hs' := Sched.release_ok hrun
    exact ⟨ls, hs'.symm ▸ hkept, hlist⟩
  | cli | sti =>
    cases hrun
    exact ⟨ls, hkept, hlist⟩
  | remthread found =>
    obtain ⟨hkept', hthis⟩ := procRemthread_kept hkept List.mem_cons_self hrun
    exact ⟨ls, hthis ▸ hkept', hlist⟩

theorem SchedRun.inv (h : SchedRun tr s) : SchedInv s :=
  Run.invariant (fun _ => schedInv_boot) (fun _ _ _ => schedInv_step) h

/-- Every thread is where it belongs.  The lists are the sequences `ls`. -/
structure Conserved (s : Sched T W K) (ls : ListId W → List T) : Prop where
  /-- From bookend to bookend the nodes of each list are its sequence. -/
  repr : ListRepr s.links ls
  this_live : (s.thread s.thisthread).isSome
  this_off : ∀ l, s.thisthread ∉ ls l
  /-- Every other live thread is once on one list, and in the state that belongs to it. -/
  listed : ∀ t th, s.thread t = some th → t ≠ s.thisthread → ∃ l,
    (l = .activeThreads ∧ th.state = .ready ∨ (∃ wc, l = .wcThreads wc) ∧ th.state = .sleep ∨
      l = .zombieThreads ∧ th.state = .zombie) ∧
    (ls l).count t = 1 ∧ ∀ l', l' ≠ l → t ∉ ls l'
  live : ∀ l, ∀ t ∈ ls l, (s.thread t).isSome
  /-- Threads get the CPU in the order in which they became runnable. -/
  order : s.madeRunnable = s.dispatched ++ ls .activeThreads
  /-- The sleepers of a channel are the last to have gone to sleep there, in that order. -/
  sleepers : ∀ wc, ls (.wcThreads wc) <:+ s.slept wc

omit [DecidableEq W] [DecidableEq K] in
theorem Threads.Kept.conserved {ls : ListId W → List T} (h : s.toThreads.Kept ls [s.thisthread])
    (hlist : ls .wakeallList = []) : Conserved s ls := by
  refine ⟨h.repr, h.live _ List.mem_cons_self, h.off _ List.mem_cons_self, ?_, ?_, h.order,
    h.sleepers⟩
  · intro t th hth hne
    have hsome : (s.thread t).isSome := by rw [hth]; rfl
    obtain ⟨l, hl⟩ := (h.listed t hsome).resolve_left (by simpa using hne)
    obtain ⟨th', hth', hst⟩ := h.state l t hl
    obtain rfl : th' = th := Option.some.inj (hth'.symm.trans hth)
    refine ⟨l, ?_, List.count_eq_one_of_mem (h.repr.nodup l) hl, ?_⟩
    · cases l with
      | activeThreads => exact .inl ⟨rfl, hst⟩
      | zombieThreads => exact .inr (.inr ⟨rfl, hst⟩)
      | wcThreads wc => exact .inr (.inl ⟨⟨wc, rfl⟩, hst⟩)
      | wakeallList => simp [hlist] at hl
    · exact fun l' hne' hl' => hne' (h.repr.disjoint l' l t hl' hl)
  · intro l t ht
    obtain ⟨th, hth, -⟩ := h.state l t ht
    rw [hth]
    rfl

/-- **The scheduler loses no thread and duplicates none.**  In every state that a run from boot
reaches, the current thread is on no list and every other live thread is exactly once on exactly one
list, in the state that belongs to it; threads are dispatched in the order in which they became
runnable.  `wchan_wakeall` appends the sleepers to the run queue in the order in which they went to
sleep, and `thread_exorcise` destroys exactly the zombies, of which the current thread is none. -/
theorem schedRun_conserved {tr : List (Sched T W K × SchedOp T W K)} {s : Sched T W K}
    (h : SchedRun tr s) :
    ∃ ls, Conserved s ls ∧
      (∀ wc lk s', wchanWakeall s wc lk = .ok s' → ∃ ls', ListRepr s'.links ls' ∧
        ls' .activeThreads = ls .activeThreads ++ ls (.wcThreads wc) ∧
        ls' (.wcThreads wc) = [] ∧ ∀ l, l ≠ .activeThreads → l ≠ .wcThreads wc → ls' l = ls l) ∧
      ∀ s', threadExorcise s = .ok s' → s'.thisthread = s.thisthread ∧
        s.thisthread ∉ ls .zombieThreads ∧
        ∀ t, s'.thread t = if t ∈ ls .zombieThreads then none else s.thread t := by
  obtain ⟨ls, hkept, hlist⟩ := h.inv
  refine ⟨ls, hkept.conserved hlist, ?_, ?_⟩
  · intro wc lk s' hrun
    obtain ⟨-, ls', hkept', hwc, hact, hother⟩ := wchanWakeall_kept hkept hlist hrun
    exact ⟨ls', hkept'.repr, hact, hwc, hother⟩
  · intro s' hrun
    exact (threadExorcise_kept hkept hrun).2

/-- The scheduler at boot, with one wait channel and one spinlock. -/
def sampleSched : Sched (Fin 2) Unit Unit where
  cpu := ⟨false, false, some 0, 0⟩
  status := .started
  thisthread := ⟨0, Nat.two_pos⟩
  bootthread := ⟨0, Nat.two_pos⟩
  thread t := if t = ⟨0, Nat.two_pos⟩ then some ⟨.ready, some 0, some 0, none⟩ else none
  links := Links.empty
  activeThreadsLock := spinlockInit
  lock _ := spinlockInit
  procLock _ := spinlockInit
  madeRunnable := []
  dispatched := []
  slept _ := []

/-- The state after an operation. -/
def schedNext (s : Sched T W K) (op : SchedOp T W K) : Sched T W K := (schedStep s op).okD s

theorem SchedRun.next (h : SchedRun tr s) (op : SchedOp T W K) (ha : op.Allowed s)
    (hok : (schedStep s op).isOk = true) : SchedRun ((s, op) :: tr) (schedNext s op) :=
  Run.step h ⟨ha, Except.eq_ok_okD hok s⟩

/-- A thread is forked, with a stack at 4096. -/
def sampleFork : SchedOp (Fin 2) Unit Unit :=
  .fork ⟨some (Fin.last 1), true, some 4096, false, true, true, none, 0⟩

theorem sampleSched_fork : SchedRun [(sampleSched, sampleFork)]
    (schedNext sampleSched sampleFork) :=
  SchedRun.next (Run.init ⟨rfl, rfl, ⟨0, 0, rfl, fun _ => rfl⟩, rfl, rfl, rfl, rfl, fun _ => rfl⟩)
    sampleFork ⟨rfl, fun t ht => by cases ht; rfl⟩ (by decide)

/-- The boot thread forks a thread, goes to sleep and is woken by it. -/
theorem schedRun_conserved_sample :
    ∃ (tr : List (Sched (Fin 2) Unit Unit × SchedOp (Fin 2) Unit Unit))
      (s : Sched (Fin 2) Unit Unit), SchedRun tr s ∧ tr.length = 7 ∧ s.thisthread = 0 ∧
      ∃ ls, Conserved s ls := by
  have hsleep := (sampleSched_fork.next (.acquire ()) trivial (by decide)).next
    (.switch .sleep (some ()) (some ())) rfl (by decide)
  have hwake := (hsleep.next (.acquire ()) trivial (by decide)).next (.wakeall () ()) rfl
    (by decide)
  have hback := (hwake.next (.release ()) trivial (by decide)).next (.switch .ready none none)
    rfl (by decide)
  obtain ⟨ls, hls, -⟩ := schedRun_conserved hback
  exact ⟨_, _, hback, rfl, by decide, ls, hls⟩

end JinxOS
