import JinxOS.Thread.Scheduler

/-!
# Calls of the scheduler that return

The other side of `JinxOS.Thread.Scheduler`: in a state in which no spinlock is in the way and the
threads are what the kernel makes of them (`Calm`), `thread_switch` finds a thread to run and
`wchan_wakeone` makes a sleeper runnable, and no assertion on the way fails.

A call that returns leaves the CPU as it was, except for `iflag`, which every acquire overwrites.
-/

namespace JinxOS

open Function (update_self update_of_ne update_idem update_eq_self update)
open List (mem_cons_self)

variable {T W K : Type}

/-- Interrupts are off, the lock of the run queue is free, and the threads are in order. -/
structure Calm (s : Sched T W K) (ls : ListId W → List T) : Prop where
  /-- Each thread is where it belongs; the current one is on no list. -/
  acc : Accounted s.links s.thread ls [s.thisthread]
  /-- Interrupts are off. -/
  off : s.cpu.intr = false
  /-- The CPU is set up. -/
  here : s.cpu.thiscpu.isSome
  /-- The CPU runs a thread. -/
  started : s.status = .started
  /-- The lock of the run queue is free. -/
  free : s.activeThreadsLock = spinlockInit
  /-- All threads are on this CPU. -/
  home : ∀ t th, s.thread t = some th → th.cpu = s.cpu.thiscpu
  /-- The current thread has a stack. -/
  stack : ∀ th, s.thread s.thisthread = some th → s.thisthread = s.bootthread ∨ th.stack.isSome
  /-- A zombie has left its process and still has its stack. -/
  zombie : ∀ t ∈ ls .zombieThreads, ∀ th, s.thread t = some th → th.proc = none ∧ th.stack.isSome
  /-- A thread on another list is in a process. -/
  proc : ∀ l, l ≠ .zombieThreads → ∀ t ∈ ls l, ∀ th, s.thread t = some th → th.proc.isSome

/-! ## Locks -/

section
variable {s : Sched T W K} {k : K}

theorem Sched.assertOff_off (h : s.cpu.intr = false) : s.assertOff = .ok s := by
  obtain ⟨q, ⟨intr, iflag, thiscpu, spinlocks⟩, status, active, lock, procLock⟩ := s
  obtain rfl : intr = false := h
  rfl

theorem Sched.acquireActive_free (h : s.activeThreadsLock = spinlockInit) :
    s.acquireActive = .ok { s with cpu := s.cpu.acquired, activeThreadsLock := s.cpu.holding } := by
  rw [Sched.acquireActive, h, spinlockAcquire_init]
  rfl

theorem Sched.releaseActive_held (h : s.activeThreadsLock = s.cpu.holding) :
    s.releaseActive = .ok { s with cpu := s.cpu.released, activeThreadsLock := spinlockInit } := by
  rw [Sched.releaseActive, h, spinlockRelease_holding]
  rfl

variable [DecidableEq K]

theorem Sched.release_held (h : s.lock k = s.cpu.holding) : s.release k =
      .ok { s with cpu := s.cpu.released, lock := update s.lock k spinlockInit } := by
  rw [Sched.release, h, spinlockRelease_holding]
  rfl

section
variable {c : Cpu} (hoff : c.intr = false)
include hoff

theorem Cpu.acquired_off (hhere : c.thiscpu.isSome) (hlt : c.spinlocks + 1 < 2 ^ 32) :
    c.acquired = { c with iflag := false, spinlocks := c.spinlocks + 1 } := by
  rw [Cpu.acquired, hoff, if_pos hhere, Word.add_eq hlt]

theorem Cpu.released_off (hiflag : c.iflag = false)
    (hhere : c.thiscpu.isSome) (hpos : 0 < c.spinlocks) (hlt : c.spinlocks < 2 ^ 32) :
    c.released = { c with spinlocks := c.spinlocks - 1 } := by
  rw [Cpu.released, hoff, hiflag, if_pos hhere, Word.sub_eq hpos hlt]
  rfl

theorem Cpu.acquired_released (hhere : c.thiscpu.isSome)
    (hlt : c.spinlocks + 1 < 2 ^ 32) : c.acquired.released = { c with iflag := false } := by
  rw [Cpu.acquired_off hoff hhere hlt]
  exact Cpu.released_off hoff rfl hhere
    (Nat.succ_pos _) hlt

end

theorem ifx_cli (c : Cpu) : ifx (cli c).2 (cli c).1 = c := by
  obtain ⟨intr, iflag, thiscpu, spinlocks⟩ := c
  cases intr <;> rfl

end

/-! ## Zombies -/

variable [DecidableEq T] [DecidableEq W]

section
variable {s : Sched T W K} {ls : ListId W → List T} {hand : List T} {t : T} {th : Thread}

omit [DecidableEq W] in
theorem threadDestroy_returns (hoff : s.cpu.intr = false) (hth : s.thread t = some th)
    (hne : t ≠ s.thisthread) (hstate : th.state = .zombie) (hproc : th.proc = none)
    (hstack : th.stack.isSome) (hclean : threadlistnodeCleanup s.links t = .ok ()) :
    threadDestroy s t = .ok { s with thread := update s.thread t none } := by
  rw [threadDestroy, Sched.assertOff_off hoff, ok_bind, bne_iff_ne.2 hne, assert_true,
    ok_bind, Sched.get, hth]
  rw [ok_bind, hstate, hproc, threadReturnstack, hstack, hclean]
  rfl

theorem threadExorciseLoop_returns : ∀ (zs : List T) {fuel : Nat} {s : Sched T W K}
    {ls : ListId W → List T}, Accounted s.links s.thread ls [s.thisthread] → s.cpu.intr = false →
    ls .zombieThreads = zs → zs.length < fuel →
    (∀ t ∈ zs, ∀ th, s.thread t = some th → th.proc = none ∧ th.stack.isSome) →
    ∃ links thread, threadExorciseLoop fuel s = .ok { s with links := links, thread := thread } ∧
      Accounted links thread (update ls .zombieThreads []) [s.thisthread] ∧
      ∀ t th, thread t = some th → s.thread t = some th := by
  intro zs
  induction zs with
  | nil =>
    intro fuel s ls hacc hoff hzs hfuel _
    obtain ⟨fuel, rfl⟩ := Nat.exists_eq_add_of_lt hfuel
    refine ⟨s.links, s.thread, ?_, ?_, fun _ _ h => h⟩
    · rw [threadExorciseLoop, Sched.remhead, threadlistRemhead_nil hacc.repr hzs]
      rfl
    · have hsame : update ls .zombieThreads [] = ls := by rw [← hzs, update_eq_self]
      rw [hsame]
      exact hacc
  | cons z zs ih =>
    intro fuel s ls hacc hoff hzs hfuel hzombie
    obtain ⟨fuel, rfl⟩ := Nat.exists_eq_succ_of_ne_zero (Nat.ne_zero_of_lt hfuel)
    obtain ⟨links, hrem, -⟩ := threadlistRemhead_cons hacc.repr hzs
    obtain ⟨zs', hzs', htake, th, hth, hstate⟩ := hacc.take hrem
    obtain rfl : zs = zs' := (List.cons.inj (hzs.symm.trans hzs')).2
    obtain ⟨hproc, hstack⟩ := hzombie z mem_cons_self th hth
    have hne : z ≠ s.thisthread := by
      have := List.nodup_cons.1 htake.nodup
      exact fun heq => this.1 (heq ▸ mem_cons_self)
    have hclean : threadlistnodeCleanup links z = .ok () :=
      threadlistnodeCleanup_spec htake.repr (htake.off z mem_cons_self)
    -- the rest of the list, with the zombie freed
    have hfree := htake.free
    have hkeep : ∀ t th', update s.thread z none t = some th' → s.thread t = some th' := by
      intro t th' ht
      by_cases heq : t = z
      · subst heq
        rw [update_self] at ht
        cases ht
      · rwa [update_of_ne heq] at ht
    obtain ⟨links', thread', hrun, hacc', hthread'⟩ := @ih fuel
      { s with links := links, thread := update s.thread z none }
      (update ls .zombieThreads zs) hfree hoff (update_self ..)
      (by rw [List.length_cons] at hfuel; omega)
      fun t ht th' ht' => hzombie t (List.mem_cons_of_mem _ ht) th' (hkeep t th' ht')
    refine ⟨links', thread', ?_, ?_, fun t th' ht => hkeep t th' (hthread' t th' ht)⟩
    · rw [threadExorciseLoop, Sched.remhead, hrem, ok_bind]
      rw [ok_bind]
      dsimp only
      rw [bne_iff_ne.2 hne, assert_true, ok_bind, Sched.get]
      rw [hth]
      rw [ok_bind, hstate, show (ListId.zombieThreads).state = .zombie from rfl,
        beq_self_eq_true, assert_true, ok_bind,
        threadDestroy_returns (s := { s with links := links }) hoff hth hne hstate hproc
        hstack hclean, ok_bind, hrun]
    · rw [update_idem] at hacc'
      exact hacc'

/-- **`thread_exorcise`** returns, and the zombies are gone. -/
theorem Calm.exorcise (h : Calm s ls) :
    ∃ links thread, threadExorcise s = .ok { s with links := links, thread := thread } ∧
      Calm { s with links := links, thread := thread } (update ls .zombieThreads []) := by
  obtain ⟨links, thread, hrun, hacc, hthread⟩ := threadExorciseLoop_returns (ls .zombieThreads)
    h.acc h.off rfl (Nat.lt_succ_self _) h.zombie
  refine ⟨links, thread, ?_, hacc, h.off, h.here, h.started, h.free,
    fun t th ht => h.home t th (hthread t th ht), fun th ht => h.stack th (hthread _ th ht), ?_, ?_⟩
  · rw [threadExorcise, Sched.assertOff_off h.off, ok_bind, h.acc.repr.count, hrun]
  · intro t ht
    rw [update_self] at ht
    exact absurd ht List.not_mem_nil
  · intro l hl t ht th hth
    rw [update_of_ne hl] at ht
    exact h.proc l hl t ht th (hthread t th hth)

end

/-! ## Making a thread runnable -/

section
variable {s : Sched T W K} {ls : ListId W → List T} {t : T} {th : Thread}
  {links : Links T (ListId W)}

/-- The scheduler after `thread_make_runnable`. -/
def Sched.runnable (s : Sched T W K) (t : T) (th : Thread) (links : Links T (ListId W)) :
    Sched T W K :=
  { s with
    thread := Function.update s.thread t (some { th with state := .ready })
    links := links
    madeRunnable := s.madeRunnable ++ [t] }

section
variable (hth : s.thread t = some th) (hcpu : th.cpu.isSome)
    (hlinks : threadlistAddtail s.links .activeThreads t = .ok links)
    (hstatus : s.status = .started)
include hth hcpu hlinks hstatus

theorem threadMakeRunnable_held (hheld : s.activeThreadsLock = s.cpu.holding) :
    threadMakeRunnable s t true = .ok (s.runnable t th links) := by
  obtain ⟨id, hderef⟩ : ∃ id, deref th.cpu = .ok id := by
    obtain ⟨id, hid⟩ := Option.isSome_iff_exists.1 hcpu
    exact ⟨id, hid ▸ deref_some id⟩
  have hget : Sched.get { s with cpu := (cli s.cpu).2 } t = .ok th := Sched.get_ok.2 hth
  have hifx := ifx_cli s.cpu
  rw [threadMakeRunnable]
  dsimp only [cli] at hget hifx ⊢
  rw [hget, ok_bind, hderef, ok_bind, Sched.enterActive, if_pos rfl]
  dsimp only [Sched.set]
  rw [hheld, show spinlockHeld { s.cpu with intr := false } s.cpu.holding = true from
    spinlockHeld_holding _, assert_true, ok_bind, ok_bind, Sched.addtail]
  rw [hlinks, ok_bind, ok_bind]
  rw [hstatus, if_neg (by decide), Sched.leaveActive, if_pos rfl, ok_bind]
  rw [hifx, ← hheld, ← hstatus]
  rfl

theorem threadMakeRunnable_free (hfree : s.activeThreadsLock = spinlockInit)
    (hoff : s.cpu.intr = false) (hhere : s.cpu.thiscpu.isSome)
    (hlt : s.cpu.spinlocks + 1 < 2 ^ 32) : threadMakeRunnable s t false =
      .ok { s.runnable t th links with cpu := { s.cpu with iflag := false } } := by
  obtain ⟨id, hderef⟩ : ∃ id, deref th.cpu = .ok id := by
    obtain ⟨id, hid⟩ := Option.isSome_iff_exists.1 hcpu
    exact ⟨id, hid ▸ deref_some id⟩
  have hcli : cli s.cpu = (false, s.cpu) := by
    rw [cli, hoff, ← hoff]
  rw [threadMakeRunnable, hcli]
  dsimp only
  rw [Sched.get_ok.2 hth, ok_bind, hderef, ok_bind, Sched.enterActive,
    if_neg Bool.false_ne_true,
    Sched.acquireActive_free (s := s.set t { th with state := .ready }) hfree, ok_bind,
    Sched.addtail]
  dsimp only [Sched.set]
  rw [hlinks, ok_bind, ok_bind]
  rw [hstatus, if_neg (by decide), Sched.leaveActive, if_neg Bool.false_ne_true,
    Sched.releaseActive_held rfl, ok_bind]
  rw [Cpu.acquired_released hoff hhere hlt, ← hstatus, ← hfree]
  rfl

end

/-- **`wchan_wakeone`** returns, and the scheduler is as before. -/
theorem Calm.wakeone (h : Calm s ls) (wc : W) {k : K} (hheld : s.lock k = s.cpu.holding)
    (hlt : s.cpu.spinlocks + 1 < 2 ^ 32) :
    ∃ s' ls', wchanWakeone s wc k = .ok s' ∧ Calm s' ls' ∧ s'.lock = s.lock ∧
      s'.procLock = s.procLock ∧ s'.thisthread = s.thisthread ∧ s'.bootthread = s.bootthread ∧
      (s'.cpu = s.cpu ∨ s'.cpu = { s.cpu with iflag := false }) ∧
      (∀ x, x ∈ ls .activeThreads → x ∈ ls' .activeThreads) ∧
      s'.thread s.thisthread = s.thread s.thisthread := by
  rw [wchanWakeone, hheld, spinlockHeld_holding, assert_true, ok_bind, Sched.remhead]
  cases hlist : ls (.wcThreads wc) with
  | nil =>
    refine ⟨s, ls, ?_, h, rfl, rfl, rfl, rfl, .inl rfl, fun x hx => hx, rfl⟩
    rw [threadlistRemhead_nil h.acc.repr hlist]
    rfl
  | cons t rest =>
    obtain ⟨links, hrem, -⟩ := threadlistRemhead_cons h.acc.repr hlist
    obtain ⟨rest', hrest', htake, th, hth, -⟩ := h.acc.take hrem
    have hproc : th.proc.isSome :=
      h.proc (.wcThreads wc) (by simp) t (hrest' ▸ mem_cons_self) th hth
    have hcpu : th.cpu.isSome := h.home t th hth ▸ h.here
    obtain ⟨links', hadd, -⟩ := threadlistAddtail_spec htake.repr
      (htake.off t mem_cons_self) .activeThreads
    have hset := htake.set mem_cons_self { th with state := .ready }
    have hready : update s.thread t (some { th with state := .ready }) t =
        some { th with state := .ready } := update_self ..
    have hpark := hset.park hready rfl hadd
    have hne : t ≠ s.thisthread := by
      have := List.nodup_cons.1 htake.nodup
      exact fun heq => this.1 (heq ▸ mem_cons_self)
    have hthread : ∀ x th', update s.thread t (some { th with state := .ready }) x =
        some th' → ∃ th'', s.thread x = some th'' ∧ th'.cpu = th''.cpu ∧ th'.proc = th''.proc ∧
          th'.stack = th''.stack := by
      intro x th' hx
      by_cases heq : x = t
      · subst heq
        rw [update_self] at hx
        cases hx
        exact ⟨th, hth, rfl, rfl, rfl⟩
      · rw [update_of_ne heq] at hx
        exact ⟨th', hx, rfl, rfl, rfl⟩
    have hrun := threadMakeRunnable_free (s := { s with links := links }) hth hcpu hadd h.started
      h.free h.off h.here hlt
    refine ⟨{ Sched.runnable { s with links := links } t th links' with
      cpu := { s.cpu with iflag := false } }, _, ?_,
      ⟨hpark, h.off, h.here, h.started, h.free, ?_, ?_, ?_, ?_⟩, rfl, rfl, rfl, rfl, .inr rfl, ?_,
      update_of_ne hne.symm _ _⟩
    · rw [hrem, ok_bind, ok_bind]
      exact hrun
    · intro x th' hx
      obtain ⟨th'', hx', hcpu', -⟩ := hthread x th' hx
      exact hcpu'.trans (h.home x th'' hx')
    · intro th' hx
      obtain ⟨th'', hx', -, -, hstack⟩ := hthread _ th' hx
      rw [hstack]
      exact h.stack th'' hx'
    · intro x hx th' hx'
      obtain ⟨th'', hx'', -, hproc', hstack⟩ := hthread x th' hx'
      rw [update_of_ne (by simp), update_of_ne (by simp)] at hx
      rw [hproc', hstack]
      exact h.zombie x hx th'' hx''
    · intro l hl x hx th' hx'
      obtain ⟨th'', hx'', -, hproc', -⟩ := hthread x th' hx'
      rw [hproc']
      by_cases hxt : x = t
      · subst hxt
        cases hth.symm.trans hx''
        exact hproc
      · refine h.proc l hl x ?_ th'' hx''
        by_cases hact : l = .activeThreads
        · subst hact
          rw [update_self, update_of_ne (by simp)] at hx
          exact (List.mem_append.1 hx).resolve_right (by simpa using hxt)
        · rw [update_of_ne hact] at hx
          by_cases hwc : l = .wcThreads wc
          · subst hwc
            rw [update_self] at hx
            rw [hrest']
            exact List.mem_cons_of_mem _ hx
          · rwa [update_of_ne hwc] at hx
    · intro x hx
      rw [update_self, update_of_ne (by simp)]
      exact List.mem_append_left _ hx

end

/-! ## Leaving the process -/

section
variable {s : Sched T W K} {ls : ListId W → List T} {th : Thread}

omit [DecidableEq T] [DecidableEq W] in
theorem Calm.relock (h : Calm s ls) {c : Cpu} (lock : K → Spinlock) (procLock : Nat → Spinlock)
    (hoff : c.intr = false) (hhere : c.thiscpu = s.cpu.thiscpu) :
    Calm { s with cpu := c, lock := lock, procLock := procLock } ls :=
  ⟨h.acc, hoff, hhere ▸ h.here, h.started, h.free, fun t th ht => (h.home t th ht).trans hhere.symm,
    h.stack, h.zombie, h.proc⟩

omit [DecidableEq W] in
theorem Calm.unproc (h : Calm s ls) (hth : s.thread s.thisthread = some th) :
    Calm (s.set s.thisthread { th with proc := none }) ls := by
  have hother : ∀ l, ∀ t ∈ ls l, t ≠ s.thisthread := fun l t ht heq =>
    h.acc.off _ List.mem_cons_self l (heq ▸ ht)
  have hself : (s.set s.thisthread { th with proc := none }).thread s.thisthread =
      some { th with proc := none } := update_self ..
  have hsame : ∀ t ≠ s.thisthread,
      (s.set s.thisthread { th with proc := none }).thread t = s.thread t :=
    fun t ht => update_of_ne ht _ _
  refine ⟨h.acc.set List.mem_cons_self _, h.off, h.here, h.started, h.free, ?_, ?_, ?_, ?_⟩
  · intro t th' ht
    by_cases heq : t = s.thisthread
    · rw [heq, hself] at ht
      cases ht
      exact h.home _ th hth
    · rw [hsame t heq] at ht
      exact h.home t th' ht
  · intro th' ht
    cases hself.symm.trans ht
    exact h.stack th hth
  · intro t hmem th' ht
    rw [hsame t (hother _ t hmem)] at ht
    exact h.zombie t hmem th' ht
  · intro l hl t hmem th' ht
    rw [hsame t (hother _ t hmem)] at ht
    exact h.proc l hl t hmem th' ht

/-- The scheduler after `proc_remthread` of the current thread. -/
def Sched.leftProc (s : Sched T W K) (p : Nat) (th : Thread) : Sched T W K :=
  Sched.set { s with
    cpu := { s.cpu with iflag := false }
    procLock := update s.procLock p spinlockInit } s.thisthread { th with proc := none }

omit [DecidableEq W] in
theorem Calm.remthread (h : Calm s ls) (hlt : s.cpu.spinlocks + 1 < 2 ^ 32) {p : Nat}
    (hproc : s.procLock p = spinlockInit)
    (hth : s.thread s.thisthread = some th) (hp : th.proc = some p) :
    procRemthread s s.thisthread true = .ok (s.leftProc p th) ∧ Calm (s.leftProc p th) ls := by
  have hlockProc : s.lockProc p = .ok { s with
      cpu := { s.cpu with iflag := false }
      procLock := update s.procLock p spinlockInit } := by
    rw [Sched.lockProc, hproc, spinlockAcquire_init, ok_bind]
    dsimp only
    rw [spinlockRelease_acquired, ok_bind, Cpu.acquired_released h.off h.here hlt]
  refine ⟨?_, (h.relock (c := { s.cpu with iflag := false }) s.lock
    (update s.procLock p spinlockInit) h.off rfl).unproc hth⟩
  rw [procRemthread, Sched.get_ok.2 hth, ok_bind, hp, Option.isSome_some, assert_true,
    ok_bind, deref_some, ok_bind, hlockProc, ok_bind, if_pos rfl]
  rfl

end

/-! ## Switching -/

section
variable {s : Sched T W K} {ls : ListId W → List T} {newstate : ThreadState}

theorem threadSwitchNext_returns {th : Thread} {next : T} {rest : List T}
    (hth : s.thread s.thisthread = some th) (hrepr : ListRepr s.links ls)
    (hlist : ls .activeThreads = next :: rest) (hne : next ≠ s.thisthread)
    (hproc : ∃ th', s.thread next = some th' ∧ th'.proc.isSome)
    (hheld : s.activeThreadsLock = s.cpu.holding) : ∃ s', threadSwitchNext s newstate = .ok s' := by
  obtain ⟨links, hrem, -⟩ := threadlistRemhead_cons hrepr hlist
  obtain ⟨th', hth', hsome⟩ := hproc
  obtain ⟨p, hp⟩ := Option.isSome_iff_exists.1 hsome
  rw [threadSwitchNext, Sched.get_ok.2 hth, ok_bind]
  dsimp only [Sched.set, Sched.remhead]
  rw [hrem, ok_bind]
  rw [ok_bind]
  dsimp only
  rw [Sched.get_ok.2 ((update_of_ne hne _ _).trans hth'), ok_bind, hp, deref_some,
    ok_bind, Sched.releaseActive_held, ok_bind]
  · exact ⟨_, rfl⟩
  · exact hheld

/-- The scheduler with the lock of the run queue taken. -/
def Sched.locked (s : Sched T W K) : Sched T W K :=
  { s with cpu := s.cpu.acquired, activeThreadsLock := s.cpu.holding }

/-- The scheduler with the current thread on a channel. -/
def Sched.asleep (s : Sched T W K) (wc : W) (links : Links T (ListId W)) : Sched T W K :=
  { s with links := links, slept := Function.update s.slept wc (s.slept wc ++ [s.thisthread]) }

variable [DecidableEq K]

theorem Calm.switch_eq (h : Calm s ls) (newstate : ThreadState) (wc : Option W) (lk : Option K) :
    ∃ s1 ls1, Calm s1 ls1 ∧ ls1 .activeThreads = ls .activeThreads ∧ s1.lock = s.lock ∧
      s1.cpu = s.cpu ∧
      threadSwitch s newstate wc lk = threadSwitchLeave s1.locked newstate wc lk >>= fun r =>
        if r.1 then threadSwitchNext r.2 newstate else .ok r.2 := by
  obtain ⟨th, hth⟩ := Option.isSome_iff_exists.1 (h.acc.live _ mem_cons_self)
  obtain ⟨s1, ls1, hcalm, hact, hlock, hcpu, hrun⟩ : ∃ s1 ls1, Calm s1 ls1 ∧
      ls1 .activeThreads = ls .activeThreads ∧ s1.lock = s.lock ∧ s1.cpu = s.cpu ∧
      (if newstate ≠ .sleep then threadExorcise s else .ok s) = .ok s1 := by
    by_cases hsleep : newstate = .sleep
    · exact ⟨s, ls, h, rfl, rfl, rfl, if_neg (not_not.2 hsleep)⟩
    · obtain ⟨links, thread, hrun, hcalm⟩ := h.exorcise
      exact ⟨_, _, hcalm, update_of_ne (by simp) _ _, rfl, rfl, (if_pos hsleep).trans hrun⟩
  obtain ⟨th1, hth1⟩ := Option.isSome_iff_exists.1 (hcalm.acc.live _ mem_cons_self)
  have hstack : (s1.thisthread == s1.bootthread || th1.stack.isSome) = true := by
    simpa using hcalm.stack th1 hth1
  refine ⟨s1, ls1, hcalm, hact, hlock, hcpu, ?_⟩
  rw [threadSwitch, Sched.assertOff_off h.off, ok_bind, Sched.get_ok.2 hth, ok_bind,
    h.home _ th hth, beq_self_eq_true, assert_true, ok_bind, hrun, ok_bind,
    hcalm.started, if_neg (by decide), threadCheckstack, Sched.get_ok.2 hth1, ok_bind, hstack,
    assert_true, ok_bind, Sched.acquireActive_free hcalm.free, ok_bind]
  rfl

omit [DecidableEq K] in
/-- The current thread is on a list; the first of those that were runnable runs. -/
theorem Calm.next_returns {ls1 : ListId W → List T} (h : Calm s ls) (s1 : Sched T W K)
    (newstate : ThreadState) (hne : ls .activeThreads ≠ []) (hthis : s1.thisthread = s.thisthread)
    (hlive : (s1.thread s.thisthread).isSome)
    (hthread : ∀ t, t ≠ s.thisthread → s1.thread t = s.thread t) (hrepr : ListRepr s1.links ls1)
    (hact : ls .activeThreads <+: ls1 .activeThreads)
    (hheld : s1.activeThreadsLock = s1.cpu.holding) :
    ∃ s', threadSwitchNext s1 newstate = .ok s' := by
  obtain ⟨next, rest, hlist⟩ := List.exists_cons_of_ne_nil hne
  obtain ⟨more, hmore⟩ := hact
  rw [hlist, List.cons_append] at hmore
  have hmem : next ∈ ls .activeThreads := hlist ▸ mem_cons_self
  have hnext : next ≠ s.thisthread := fun heq =>
    h.acc.off _ mem_cons_self .activeThreads (heq ▸ hmem)
  obtain ⟨th', hth', -⟩ := h.acc.state .activeThreads next hmem
  obtain ⟨th, hth⟩ := Option.isSome_iff_exists.1 hlive
  exact threadSwitchNext_returns (hthis ▸ hth) hrepr hmore.symm (hthis ▸ hnext)
    ⟨th', (hthread next hnext).trans hth', h.proc .activeThreads (by simp) next hmem th' hth'⟩ hheld

section
variable (h : Calm s ls) (hne : ls .activeThreads ≠ [])
include h hne

/-- **A yield** switches to another thread. -/
theorem Calm.switch_ready (wc : Option W)
    (lk : Option K) : ∃ s', threadSwitch s .ready wc lk = .ok s' := by
  obtain ⟨s1, ls1, hcalm, hact, -, -, hrun⟩ := h.switch_eq .ready wc lk
  rw [← hact] at hne
  obtain ⟨th, hth⟩ := Option.isSome_iff_exists.1 (hcalm.acc.live _ mem_cons_self)
  obtain ⟨links, hadd, hrepr⟩ := threadlistAddtail_spec hcalm.acc.repr
    (hcalm.acc.off _ mem_cons_self) .activeThreads
  have hempty : threadlistIsempty s1.links .activeThreads = false := by
    rw [← Bool.not_eq_true, threadlistIsempty_iff hcalm.acc.repr]
    exact hne
  have hmake := threadMakeRunnable_held (s := s1.locked) hth (hcalm.home _ th hth ▸ hcalm.here) hadd
    hcalm.started rfl
  obtain ⟨s', hnext⟩ := hcalm.next_returns
    (s1.locked.runnable s1.thisthread th links) .ready hne rfl
    (congrArg Option.isSome (update_self s1.thisthread _ s1.thread))
    (fun t ht => update_of_ne ht _ _)
    hrepr (by rw [update_self]; exact List.prefix_append _ _) rfl
  refine ⟨s', ?_⟩
  rw [hrun, threadSwitchLeave]
  change (if threadlistIsempty s1.links .activeThreads = true then _ else _) >>= _ = _
  rw [hempty, if_neg Bool.false_ne_true]
  change (threadMakeRunnable s1.locked s1.thisthread true >>= _) >>= _ = _
  rw [hmake, ok_bind, ok_bind]
  exact hnext

/-- **A thread that becomes a zombie** gives the CPU to another one. -/
theorem Calm.switch_zombie (wc : Option W)
    (lk : Option K) : ∃ s', threadSwitch s .zombie wc lk = .ok s' := by
  obtain ⟨s1, ls1, hcalm, hact, -, -, hrun⟩ := h.switch_eq .zombie wc lk
  rw [← hact] at hne
  obtain ⟨links, hadd, hrepr⟩ := threadlistAddtail_spec hcalm.acc.repr
    (hcalm.acc.off _ mem_cons_self) .zombieThreads
  obtain ⟨s', hnext⟩ := hcalm.next_returns
    { s1.locked with links := links } .zombie hne rfl (hcalm.acc.live _ mem_cons_self)
    (fun _ _ => rfl) hrepr (by simp) rfl
  refine ⟨s', ?_⟩
  rw [hrun, threadSwitchLeave, Sched.addtail]
  change ((threadlistAddtail s1.links .zombieThreads s1.thisthread >>= _) >>= _) >>= _ = _
  rw [hadd]
  exact hnext

/-- **A thread that goes to sleep** gives the CPU to another one. -/
theorem Calm.switch_sleep (wc : W) {k : K} (hheld : s.lock k = s.cpu.holding) :
    ∃ s', threadSwitch s .sleep (some wc) (some k) = .ok s' := by
  obtain ⟨s1, ls1, hcalm, hact, hlock, hcpu, hrun⟩ := h.switch_eq .sleep (some wc) (some k)
  rw [← hact] at hne
  obtain ⟨links, hadd, hrepr⟩ := threadlistAddtail_spec hcalm.acc.repr
    (hcalm.acc.off _ mem_cons_self) (.wcThreads wc)
  have hrel := Sched.release_held (s := s1.locked.asleep wc links)
    (show s1.lock k = s1.cpu.holding by rw [hlock, hcpu, hheld])
  obtain ⟨s', hnext⟩ := hcalm.next_returns
    { s1.locked.asleep wc links with
      cpu := s1.cpu.acquired.released
      lock := update s1.lock k spinlockInit } .sleep hne rfl
    (hcalm.acc.live _ mem_cons_self) (fun _ _ => rfl) hrepr
    (by simp) rfl
  refine ⟨s', ?_⟩
  rw [hrun, threadSwitchLeave, deref_some, ok_bind, Sched.addtail]
  change ((threadlistAddtail s1.links (.wcThreads wc) s1.thisthread >>= _) >>= _) >>= _ = _
  rw [hadd]
  change (Sched.release (s1.locked.asleep wc links) k >>= _) >>= _ = _
  rw [hrel]
  exact hnext

end

end

/-! ## A thread in user mode -/

/-- Two threads: the boot thread, and one in user mode. -/
def twoThreads (t : Fin 2) : Option Thread :=
  if t = 0 then some ⟨.ready, some 0, some 0, none⟩ else some ⟨.run, some 0, some 1, some 4096⟩

/-- The boot thread is in the run queue. -/
def bootQueued : Links (Fin 2) (ListId Nat) :=
  (threadlistAddtail Links.empty .activeThreads 0).okD Links.empty

/-- The lists. -/
def userLists : ListId Nat → List (Fin 2) := update (fun _ => []) .activeThreads [0]

theorem userLists_ne_nil : userLists .activeThreads ≠ [] := List.cons_ne_nil _ _

/-- The thread in user mode has the CPU. -/
def userSched : Sched (Fin 2) Nat Nat where
  thisthread := 1
  bootthread := 0
  thread := twoThreads
  links := bootQueued
  madeRunnable := []
  dispatched := []
  slept := fun _ => []
  cpu := ⟨false, false, some 0, 0⟩
  status := .started
  activeThreadsLock := spinlockInit
  lock := fun _ => spinlockInit
  procLock := fun _ => spinlockInit

theorem userSched_accounted : Accounted bootQueued twoThreads userLists [1] := by
  have hempty : Accounted (Links.empty : Links (Fin 2) (ListId Nat)) twoThreads (fun _ => [])
      [0, 1] :=
    ⟨listRepr_empty, by decide, by decide, by simp, fun t _ => .inl (by revert t; decide), by simp⟩
  obtain ⟨links, hadd, -⟩ := threadlistAddtail_spec
    (s := (Links.empty : Links (Fin 2) (ListId Nat)))
    listRepr_empty (by simp) .activeThreads
  have hlinks : bootQueued = links := by rw [bootQueued, hadd]; rfl
  rw [hlinks]
  exact hempty.park (show twoThreads 0 = some ⟨.ready, some 0, some 0, none⟩ from rfl) rfl hadd

theorem userSched_calm : Calm userSched userLists := by
  have hmem : ∀ l, ∀ t ∈ userLists l, l = .activeThreads ∧ t = 0 := by
    intro l t ht
    by_cases hl : l = .activeThreads
    · subst hl
      exact ⟨rfl, List.mem_singleton.1 ht⟩
    · rw [userLists, update_of_ne hl] at ht
      exact absurd ht List.not_mem_nil
  have hcpu : ∀ t th, twoThreads t = some th → th.cpu = some 0 ∧ th.proc.isSome := by decide
  refine ⟨userSched_accounted, rfl, rfl, rfl, rfl, fun t th h => (hcpu t th h).1, ?_, ?_, ?_⟩
  · intro th hth
    cases hth
    exact .inr rfl
  · intro t ht
    exact nomatch (hmem _ t ht).1
  · exact fun l _ t _ th hth => (hcpu t th hth).2

end JinxOS
