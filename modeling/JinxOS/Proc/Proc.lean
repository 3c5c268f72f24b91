import JinxOS.Klib.Array
import JinxOS.Proc.Pidreg

/-!
# Processes

The code of `proc/proc.c` that makes and destroys processes.  A process structure is known by its
address, of type `P`; `kmalloc` and `strdup` do not fail here, and `kmalloc` returns an address that
is not in use. Of the structure there is what these functions read: the threads, the page directory
and the pid.  The list, the lock and the semaphores of a process are made and destroyed with it.

Two things are given with a call of `proc_program`: the page directory that `pgdir_create` returns,
or the null pointer, and the thread that `load_icode` forks.  Neither function touches a pid.

What the calls do to pids is all that the second part is about: `PidView` is the registrar, the
address of `kproc` and the pids of the live processes.
-/

namespace JinxOS

open Function (update update_idem update_of_ne update_self)

/-! ## The code -/

/-- `struct proc`. -/
structure Proc (T : Type) where
  name : String
  threads : KArray T
  pageDirectory : Option Nat
  pid : Nat

/-- The processes of the system. -/
structure ProcSys (P T : Type) where
  kpidreg : Option (PidRegistrar T)
  /-- The process structures that are in use. -/
  proc : P → Option (Proc T)
  kproc : Option P
  tproc : T → Option P

variable {P T : Type} [DecidableEq P] [DecidableEq T]

/-- The structure at an address. -/
def liveProc (s : ProcSys P T) (p : P) : Except Fault (Proc T) :=
  match s.proc p with
  | none => .error .useAfterFree
  | some o => .ok o

/-- An assignment to a structure. -/
def ProcSys.setProc (s : ProcSys P T) (p : P) (o : Option (Proc T)) : ProcSys P T :=
  { s with proc := Function.update s.proc p o }

/-- `proc_create`, called by the thread `t`; the structure is at `p`. -/
def procCreate (s : ProcSys P T) (t : T) (p : P) (name : String) : Except Fault (ProcSys P T) := do
  let (pid, r) ← pidregGetpid s.kpidreg t
  .ok { s.setProc p (some ⟨name, arrayCreate, none, pid⟩) with kpidreg := some r }

/-- `proc_destroy`. -/
def procDestroy (s : ProcSys P T) (t : T) (p : P) : Except Fault (ProcSys P T) := do
  assert "proc != kproc" (s.kproc != some p)
  let o ← liveProc s p
  let _ ← arrayCleanup o.threads
  let r ← pidregReturnpid s.kpidreg t o.pid
  .ok { s.setProc p none with kpidreg := some r }

/-- `proc_addthread`. -/
def ProcSys.addthread [Inhabited T] (s : ProcSys P T) (p : P) (t : T) :
    Except Fault (Nat × ProcSys P T) := do
  assert "t->proc == NULL" (s.tproc t).isNone
  let o ← liveProc s p
  let (result, _, threads) ← arrayAdd o.threads t
  let s := s.setProc p (some { o with threads := threads })
  if result ≠ 0 then .ok (result, s)
  else .ok (0, { s with tproc := Function.update s.tproc t (some p) })

/-- The loop of `proc_remthread` from index `i` on, with `k` more indices to look at: where the
thread is. -/
def threadIndex (a : KArray T) (t : T) : Nat → Nat → Except Fault (Option Nat)
  | 0, _ => .ok none
  | k + 1, i => do
    let u ← arrayGet a i
    if u = t then .ok (some i) else threadIndex a t k (i + 1)

/-- `proc_remthread`. -/
def ProcSys.remthread (s : ProcSys P T) (t : T) : Except Fault (ProcSys P T) := do
  assert "proc != NULL" (s.tproc t).isSome
  let p ← deref (s.tproc t)
  let o ← liveProc s p
  let found ← threadIndex o.threads t (arrayNum o.threads) 0
  match found with
  | none => .error (.panic "Thread (%p) has escaped from its process (%p)\n")
  | some i => do
    let threads ← arrayRemove o.threads i
    .ok { s.setProc p (some { o with threads := threads }) with
      tproc := Function.update s.tproc t none }

/-- `init_proc`, called by the thread `t` of the boot CPU. -/
def initProc [Inhabited T] (s : ProcSys P T) (t : T) (p : P) (kpd : Nat) :
    Except Fault (ProcSys P T) := do
  assert "thisproc == NULL" (s.tproc t).isNone
  let s ← procCreate s t p "[kproc]"
  let o ← liveProc s p
  let (result, s) ← (s.setProc p (some { o with pageDirectory := some kpd })).addthread p t
  if result ≠ 0 then .error (.panic "proc_addthread\n")
  else do
    assert "thisproc != NULL" (s.tproc t).isSome
    let o ← liveProc s p
    .ok { s.setProc p (some { o with pid := 0 }) with kproc := some p }

/-- `proc_program`: whether a process is returned, and the system. -/
def procProgram [Inhabited T] (s : ProcSys P T) (t : T) (p : P) (name : String)
    (pgdir : Option Nat) (thread : T) :
    Except Fault (Bool × ProcSys P T) := do
  let s ← procCreate s t p name
  match pgdir with
  | none => do
    let s ← procDestroy s t p
    .ok (false, s)
  | some pd => do
    let o ← liveProc s p
    let (pid, r) ← pidregGetpid s.kpidreg t
    let s := { s.setProc p (some { o with pageDirectory := some pd, pid := pid }) with
      kpidreg := some r }
    let (_, s) ← s.addthread p thread
    .ok (true, s)

/-! ## Runs -/

/-- A call. -/
inductive ProcCall (P T : Type)
  /-- `init_proc()`. -/
  | init (t : T) (p : P) (kpd : Nat)
  /-- `proc_create(name)`. -/
  | create (t : T) (p : P) (name : String)
  /-- `proc_program(name, binary)`. -/
  | program (t : T) (p : P) (name : String) (pgdir : Option Nat) (thread : T)
  /-- `proc_destroy(p)`. -/
  | destroy (t : T) (p : P)
  /-- `proc_addthread(p, t)`. -/
  | addthread (p : P) (t : T)
  /-- `proc_remthread(t)`. -/
  | remthread (t : T)

/-- A call that returns. -/
def ProcStep [Inhabited T] (s : ProcSys P T) : ProcCall P T → ProcSys P T → Prop
  | .init t p kpd, s' => s.proc p = none ∧ initProc s t p kpd = .ok s'
  | .create t p name, s' => s.proc p = none ∧ procCreate s t p name = .ok s'
  | .program t p name pgdir thread, s' =>
    s.proc p = none ∧ ∃ res, procProgram s t p name pgdir thread = .ok (res, s')
  | .destroy t p, s' => procDestroy s t p = .ok s'
  | .addthread p t, s' => ∃ res, s.addthread p t = .ok (res, s')
  | .remthread t, s' => s.remthread t = .ok s'

/-- At the start there are no processes. -/
def ProcSys.empty : ProcSys P T := ⟨none, fun _ => none, none, fun _ => none⟩

/-- A run of calls. -/
def ProcsRun [Inhabited T] (tr : List (ProcSys P T × ProcCall P T)) (s : ProcSys P T) : Prop :=
  Run (· = .empty) ProcStep tr s

/-! ## What the calls do to pids -/

/-- What there is of pids. -/
structure PidView (P T : Type) where
  kpidreg : Option (PidRegistrar T)
  kproc : Option P
  /-- The pids of the live processes. -/
  pid : P → Option Nat

/-- The pids of a system. -/
def ProcSys.view (s : ProcSys P T) : PidView P T :=
  ⟨s.kpidreg, s.kproc, fun p => (s.proc p).map Proc.pid⟩

section
variable {s s' : ProcSys P T} {t thread : T} {p : P} {name : String}

omit [DecidableEq P] [DecidableEq T] in
theorem liveProc_ok {o : Proc T} (h : liveProc s p = .ok o) : s.proc p = some o := by
  rw [liveProc] at h
  split at h
  · exact nomatch h
  · exact (Except.ok.inj h) ▸ ‹_›

omit [DecidableEq P] [DecidableEq T] in
theorem ProcSys.view_pid {o : Proc T} (h : s.proc p = some o) : s.view.pid p = some o.pid :=
  congrArg (Option.map Proc.pid) h

omit [DecidableEq T] in
theorem ProcSys.view_setProc (s : ProcSys P T) (p : P) (o : Option (Proc T)) :
    (s.setProc p o).view = { s.view with pid := update s.view.pid p (o.map Proc.pid) } := by
  have hpids : (fun q => (update s.proc p o q).map Proc.pid) =
      update s.view.pid p (o.map Proc.pid) := by
    funext q
    by_cases hq : q = p
    · subst hq
      rw [update_self, update_self]
    · rw [update_of_ne hq, update_of_ne hq]
      rfl
  exact congrArg (PidView.mk s.kpidreg s.kproc) hpids

omit [DecidableEq T] in
theorem ProcSys.view_setProc_self {o o' : Proc T} (h : s.proc p = some o) (hpid : o'.pid = o.pid) :
    (s.setProc p (some o')).view = s.view := by
  have hpids : update s.view.pid p (some o'.pid) = s.view.pid := by
    rw [hpid, ← view_pid h, Function.update_eq_self]
  rw [view_setProc, Option.map_some, hpids]

theorem procCreate_view (h : procCreate s t p name = .ok s') :
    ∃ pid r, pidregGetpid s.kpidreg t = .ok (pid, r) ∧
      s'.view = ⟨some r, s.kproc, update s.view.pid p (some pid)⟩ := by
  obtain ⟨⟨pid, r⟩, hget, h⟩ := of_bind h
  cases h
  refine ⟨pid, r, hget, ?_⟩
  have hview := ProcSys.view_setProc s p (some ⟨name, arrayCreate, none, pid⟩)
  exact congrArg (fun v => ({ v with kpidreg := some r } : PidView P T)) hview

theorem procDestroy_view (h : procDestroy s t p = .ok s') :
    s.kproc ≠ some p ∧ ∃ pid r, s.view.pid p = some pid ∧ pidregReturnpid s.kpidreg t pid = .ok r ∧
      s'.view = ⟨some r, s.kproc, update s.view.pid p none⟩ := by
  obtain ⟨_, hk, h⟩ := of_bind h
  obtain ⟨o, ho, h⟩ := of_bind h
  obtain ⟨_, -, h⟩ := of_bind h
  obtain ⟨r, hret, h⟩ := of_bind h
  cases h
  refine ⟨by simpa [assert_ok] using hk, o.pid, r, ?_, hret, ?_⟩
  · exact ProcSys.view_pid (liveProc_ok ho)
  · exact congrArg (fun v => ({ v with kpidreg := some r } : PidView P T))
      (ProcSys.view_setProc s p none)

theorem addthread_view [Inhabited T] {res : Nat} (h : s.addthread p t = .ok (res, s')) :
    s'.view = s.view := by
  obtain ⟨_, -, h⟩ := of_bind h
  obtain ⟨o, ho, h⟩ := of_bind h
  obtain ⟨⟨result, i, threads⟩, -, h⟩ := of_bind h
  have hview : (s.setProc p (some { o with threads := threads })).view = s.view :=
    ProcSys.view_setProc_self (liveProc_ok ho) rfl
  dsimp only at h
  split at h
  · cases h
    exact hview
  · cases h
    exact hview

theorem remthread_view (h : s.remthread t = .ok s') : s'.view = s.view := by
  obtain ⟨_, -, h⟩ := of_bind h
  obtain ⟨p, -, h⟩ := of_bind h
  obtain ⟨o, ho, h⟩ := of_bind h
  obtain ⟨found, -, h⟩ := of_bind h
  split at h
  · exact nomatch h
  · obtain ⟨threads, -, h⟩ := of_bind h
    cases h
    have hview : (s.setProc p (some { o with threads := threads })).view = s.view :=
      ProcSys.view_setProc_self (liveProc_ok ho) rfl
    exact hview

theorem initProc_view [Inhabited T] {kpd : Nat} (h : initProc s t p kpd = .ok s') :
    ∃ pid r, pidregGetpid s.kpidreg t = .ok (pid, r) ∧
      s'.view = ⟨some r, some p, update s.view.pid p (some 0)⟩ := by
  obtain ⟨_, -, h⟩ := of_bind h
  obtain ⟨s1, hcreate, h⟩ := of_bind h
  obtain ⟨o, ho, h⟩ := of_bind h
  obtain ⟨⟨result, s2⟩, hadd, h⟩ := of_bind h
  obtain ⟨pid, r, hget, hview1⟩ := procCreate_view hcreate
  have hview2 : s2.view = s1.view :=
    (addthread_view hadd).trans (ProcSys.view_setProc_self (liveProc_ok ho) rfl)
  dsimp only at h
  split at h
  · exact nomatch h
  · obtain ⟨_, -, h⟩ := of_bind h
    obtain ⟨o2, -, h⟩ := of_bind h
    cases h
    refine ⟨pid, r, hget, ?_⟩
    have hview := ProcSys.view_setProc s2 p (some { o2 with pid := 0 })
    rw [hview2, hview1, Option.map_some, update_idem] at hview
    exact congrArg (fun v => ({ v with kproc := some p } : PidView P T)) hview

theorem procProgram_none_view [Inhabited T] {res : Bool}
    (h : procProgram s t p name none thread = .ok (res, s')) :
    ∃ s1, procCreate s t p name = .ok s1 ∧ procDestroy s1 t p = .ok s' := by
  obtain ⟨s1, hcreate, h⟩ := of_bind h
  obtain ⟨s2, hdestroy, h⟩ := of_bind h
  cases h
  exact ⟨s1, hcreate, hdestroy⟩

theorem procProgram_some_view [Inhabited T] {res : Bool} {pd : Nat}
    (h : procProgram s t p name (some pd) thread = .ok (res, s')) :
    ∃ pid1 r1 pid2 r2, pidregGetpid s.kpidreg t = .ok (pid1, r1) ∧
      pidregGetpid (some r1) t = .ok (pid2, r2) ∧
      s'.view = ⟨some r2, s.kproc, update s.view.pid p (some pid2)⟩ := by
  obtain ⟨s1, hcreate, h⟩ := of_bind h
  obtain ⟨pid1, r1, hget1, hview1⟩ := procCreate_view hcreate
  obtain ⟨o, ho, h⟩ := of_bind h
  obtain ⟨⟨pid2, r2⟩, hget2, h⟩ := of_bind h
  obtain ⟨⟨_, s2⟩, hadd, h⟩ := of_bind h
  cases h
  have hreg : s1.kpidreg = some r1 := congrArg PidView.kpidreg hview1
  refine ⟨pid1, r1, pid2, r2, hget1, hreg ▸ hget2, (addthread_view hadd).trans ?_⟩
  have hview := ProcSys.view_setProc s1 p (some { o with pageDirectory := some pd, pid := pid2 })
  rw [hview1, Option.map_some, update_idem] at hview
  exact congrArg (fun v => ({ v with kpidreg := some r2 } : PidView P T)) hview

end

end JinxOS
