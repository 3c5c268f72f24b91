import JinxOS.Lib.Memory
import JinxOS.Thread.Progress
import JinxOS.Thread.Runs

/-!
# The words at the bottom of a stack

`thread_initstack` writes four words to the bottom of a stack, and `thread_checkstack` is meant to
find out whether they are still there.  But its assertions about them are assignments: they write
the words again, and what is asserted is the value that is assigned, which is not zero.

The functions of `JinxOS.Thread.Thread` that check a stack are repeated here with the memory, which
they do not depend on otherwise.

* `threadCheckstackMem_eq` — the check is `thread_initstack` once more;
* `threadSwitchMem_fst` — without the memory this is `thread_switch`;
* `stackCall_returns` — in a calm state the calls return, whatever is in memory;
* `checkstack_detects_iff` — **an overflow is not detected**: the check changes a stack that is not
  intact, and lets pass every thread that is not stopped for another reason.
-/

namespace JinxOS

/-! ## The check -/

/-- `THREAD_STACK_MAGIC`. -/
def threadStackMagic : Nat := 0xDEADFACE

/-- `thread_initstack`. -/
def threadInitstack (m : ByteMem) (stackAddr : Nat) : ByteMem :=
  (((m.store stackAddr threadStackMagic).store (stackAddr + 4) threadStackMagic).store
    (stackAddr + 8) threadStackMagic).store (stackAddr + 12) threadStackMagic

/-- `assert(word = v)`: the word is assigned, and the value of the assignment is asserted. -/
def assertAssign (m : ByteMem) (word v : Nat) : Except Fault ByteMem := do
  let m := m.store word v
  assert "((uint32_t*) thread->stack)[i] = THREAD_STACK_MAGIC" (v != 0)
  .ok m

variable {T W K : Type} [DecidableEq T] {s : Sched T W K} {m : ByteMem} {a : Nat}

/-- `thread_checkstack`, with the memory. -/
def threadCheckstackMem (s : Sched T W K) (m : ByteMem) (t : T) : Except Fault ByteMem := do
  -- the first assertion
  threadCheckstack s t
  let th ← s.get t
  let stack := th.stack.getD 0
  let m ← assertAssign m stack threadStackMagic
  let m ← assertAssign m (stack + 4) threadStackMagic
  let m ← assertAssign m (stack + 8) threadStackMagic
  assertAssign m (stack + 12) threadStackMagic

/-- The words of `thread_initstack` are there. -/
def StackIntact (m : ByteMem) (a : Nat) : Prop := ∀ i < 4, m.load (a + 4 * i) = threadStackMagic

theorem threadInitstack_eq_self : threadInitstack m a = m ↔ StackIntact m a := by
  have hmagic : threadStackMagic < 2 ^ 32 := by decide
  constructor
  · intro h i hi
    rw [← h, threadInitstack]
    obtain rfl | rfl | rfl | rfl : i = 0 ∨ i = 1 ∨ i = 2 ∨ i = 3 := by omega
    · rw [load_store_of_disjoint, load_store_of_disjoint, load_store_of_disjoint]
      exact load_store_same hmagic
    · rw [load_store_of_disjoint, load_store_of_disjoint]
      exact load_store_same hmagic
    · rw [load_store_of_disjoint]
      exact load_store_same hmagic
    · exact load_store_same hmagic
  · intro h
    have hsame : ∀ i < 4, m.store (a + 4 * i) threadStackMagic = m := fun i hi => by
      rw [← h i hi, ByteMem.store_load_self]
    rw [threadInitstack, show m.store a threadStackMagic = m from hsame 0 (by decide),
      hsame 1 (by decide), hsame 2 (by decide), hsame 3 (by decide)]

/-- **The check writes the words again.** -/
theorem threadCheckstackMem_eq {t : T} {th : Thread} (hth : s.thread t = some th) :
    threadCheckstackMem s m t =
      threadCheckstack s t >>= fun _ => .ok (threadInitstack m (th.stack.getD 0)) := by
  rw [threadCheckstackMem, Sched.get, hth]
  rfl

theorem threadCheckstackMem_bind {α : Type} {f : ByteMem → Except Fault α} {r : Except Fault α}
    (h : ∀ m, f m = r) (t : T) :
    threadCheckstackMem s m t >>= f = threadCheckstack s t >>= fun _ => r := by
  cases hth : s.thread t with
  | none =>
    rw [threadCheckstackMem, threadCheckstack, Sched.get, hth]
    rfl
  | some th =>
    rw [threadCheckstackMem_eq hth, bind_assoc]
    exact bind_congr fun _ => h _

/-! ## Calls -/

variable [DecidableEq W] [DecidableEq K]

/-- `thread_switch`, with the memory. -/
def threadSwitchMem (s : Sched T W K) (m : ByteMem) (newstate : ThreadState) (wc : Option W)
    (lk : Option K) : Except Fault (Sched T W K × ByteMem) := do
  let s ← s.assertOff
  let this ← s.get s.thisthread
  assert "thisthread->cpu == thiscpu->self" (this.cpu == s.cpu.thiscpu)
  let s ← (if newstate ≠ .sleep then threadExorcise s else .ok s)
  if s.status = .idle then .ok (s, m)
  else
    let m ← threadCheckstackMem s m s.thisthread
    let s ← s.acquireActive
    let (goesOn, s) ← threadSwitchLeave s newstate wc lk
    let s ← (if goesOn then threadSwitchNext s newstate else .ok s)
    .ok (s, m)

/-- The part of `thread_exit` after the parent has been told, where `found` says whether the thread
is in the array of its process. -/
def threadExitMem (s : Sched T W K) (m : ByteMem) (found : Bool) :
    Except Fault (Sched T W K × ByteMem) := do
  let s ← procRemthread s s.thisthread found
  let this ← s.get s.thisthread
  assert "thisthread->proc == NULL" this.proc.isNone
  let m ← threadCheckstackMem s m s.thisthread
  assert "thiscpu->status != CPU_IDLE" (s.status != .idle)
  threadSwitchMem s m .zombie none none

/-- The calls with which a thread has its stack checked. -/
inductive StackCall (W K : Type)
  /-- `thread_switch`. -/
  | switch (newstate : ThreadState) (wc : Option W) (lk : Option K)
  /-- `thread_exit`. -/
  | exit (found : Bool)

/-- What a call of the current thread does. -/
def stackCall (s : Sched T W K) (m : ByteMem) :
    StackCall W K → Except Fault (Sched T W K × ByteMem)
  | .switch newstate wc lk => threadSwitchMem s m newstate wc lk
  | .exit found => threadExitMem s m found

/-- **`thread_switch`** does with the threads what it does without the memory. -/
theorem threadSwitchMem_fst (newstate : ThreadState) (wc : Option W) (lk : Option K) :
    Prod.fst <$> threadSwitchMem s m newstate wc lk = threadSwitch s newstate wc lk := by
  rw [threadSwitchMem, threadSwitch, map_bind]
  refine bind_congr fun s1 => ?_
  rw [map_bind]
  refine bind_congr fun this => ?_
  rw [map_bind]
  refine bind_congr fun _ => ?_
  rw [map_bind]
  refine bind_congr fun s2 => ?_
  split
  · rfl
  · rw [map_bind]
    refine threadCheckstackMem_bind (fun m => ?_) _
    rw [map_bind]
    refine bind_congr fun s3 => ?_
    rw [map_bind]
    refine bind_congr fun p => ?_
    rw [map_bind]
    exact (bind_congr fun _ => rfl).trans (bind_pure _)

theorem stackCall_fst (m m0 : ByteMem) (c : StackCall W K) :
    Prod.fst <$> stackCall s m c = Prod.fst <$> stackCall s m0 c := by
  cases c with
  | switch newstate wc lk => exact (threadSwitchMem_fst ..).trans (threadSwitchMem_fst ..).symm
  | exit found =>
    rw [stackCall, stackCall, threadExitMem, threadExitMem, map_bind, map_bind]
    refine bind_congr fun s1 => ?_
    rw [map_bind, map_bind]
    refine bind_congr fun this => ?_
    rw [map_bind, map_bind, map_bind, map_bind]
    refine bind_congr fun _ => ?_
    have hrest : ∀ m : ByteMem, Prod.fst <$> (assert "thiscpu->status != CPU_IDLE"
        (s1.status != .idle) >>= fun _ => threadSwitchMem s1 m .zombie none none) =
        assert "thiscpu->status != CPU_IDLE" (s1.status != .idle) >>= fun _ =>
          threadSwitch s1 .zombie none none :=
      fun m => (map_bind ..).trans (bind_congr fun _ => threadSwitchMem_fst ..)
    rw [threadCheckstackMem_bind hrest, threadCheckstackMem_bind hrest]

/-- A call as the kernel makes it.  A thread that goes to sleep holds the lock that it gives, and
one that ends is in its process. -/
def StackCall.Legal (s : Sched T W K) : StackCall W K → Prop
  | .switch .run _ _ => False
  | .switch .sleep wc lk => wc.isSome = true ∧ ∃ k, lk = some k ∧ s.lock k = s.cpu.holding
  | .switch _ _ _ => True
  | .exit found => found = true ∧ s.cpu.spinlocks + 1 < 2 ^ 32 ∧ ∃ th p,
    s.thread s.thisthread = some th ∧ th.proc = some p ∧ s.procLock p = spinlockInit

theorem threadSwitchMem_isOk {newstate : ThreadState} {wc : Option W} {lk : Option K}
    (h : ∃ s', threadSwitch s newstate wc lk = .ok s') :
    (threadSwitchMem s m newstate wc lk).isOk = true := by
  obtain ⟨s', hs'⟩ := h
  rw [← threadSwitchMem_fst (m := m)] at hs'
  cases hmem : threadSwitchMem s m newstate wc lk with
  | error e =>
    rw [hmem] at hs'
    cases hs'
  | ok r => rfl

/-- **The calls return** in a calm state, whatever is in memory. -/
theorem stackCall_returns {ls : ListId W → List T} (h : Calm s ls) (hne : ls .activeThreads ≠ [])
    {c : StackCall W K} (hc : c.Legal s) : (stackCall s m c).isOk = true := by
  match c, hc with
  | .switch .ready wc lk, _ => exact threadSwitchMem_isOk (h.switch_ready hne wc lk)
  | .switch .zombie wc lk, _ => exact threadSwitchMem_isOk (h.switch_zombie hne wc lk)
  | .switch .sleep (some wc) _, ⟨_, k, rfl, hheld⟩ =>
    exact threadSwitchMem_isOk (h.switch_sleep hne wc hheld)
  | .exit _, ⟨rfl, hlt, th, p, hth, hp, hproc⟩ =>
    obtain ⟨hrem, hcalm⟩ := h.remthread hlt hproc hth hp
    have hleft : (s.leftProc p th).thread s.thisthread = some { th with proc := none } :=
      Function.update_self ..
    have hstack : (s.thisthread == s.bootthread || th.stack.isSome) = true := by
      simpa using h.stack th hth
    have hcheck : threadCheckstack (s.leftProc p th) s.thisthread = .ok () := by
      rw [threadCheckstack, Sched.get_ok.2 hleft, ok_bind]
      exact (congrArg _ hstack).trans (assert_true _)
    rw [stackCall, threadExitMem, hrem, ok_bind,
      show (s.leftProc p th).thisthread = s.thisthread from rfl, Sched.get_ok.2 hleft, ok_bind,
      Option.isNone_none, assert_true, ok_bind, threadCheckstackMem_eq hleft, hcheck, ok_bind,
      ok_bind, hcalm.started]
    exact threadSwitchMem_isOk (hcalm.switch_zombie hne none none)

/-- **The check finds nothing.**  It leaves the memory alone and passes exactly when the words are
there if and only if they are there, and the current thread with a stack that has run over is
stopped if and only if it would be stopped with any memory.  In a calm state it would not be. -/
theorem checkstack_detects_iff (s : Sched T W K) (m : ByteMem) {t : T} {th : Thread} {a : Nat}
    (hth : s.thread t = some th) (hstack : th.stack = some a) :
    ((∀ m', threadCheckstackMem s m t = .ok m' ↔ m' = m ∧ StackIntact m a) ↔ StackIntact m a) ∧
      (t = s.thisthread → ∀ c : StackCall W K,
        (¬ StackIntact m a → (stackCall s m c).isOk = false) ↔
          StackIntact m a ∨ ∀ m0, (stackCall s m0 c).isOk = false) ∧
      (t = s.thisthread → ∀ (ls : ListId W → List T) (c : StackCall W K), Calm s ls →
        ls .activeThreads ≠ [] → c.Legal s →
          ((¬ StackIntact m a → (stackCall s m c).isOk = false) ↔ StackIntact m a)) := by
  have hpass : threadCheckstack s t = .ok () := by
    rw [threadCheckstack, Sched.get, hth]
    dsimp only
    rw [ok_bind, hstack, Option.isSome_some, Bool.or_true, assert_true]
  have hcheck : threadCheckstackMem s m t = .ok (threadInitstack m a) := by
    rw [threadCheckstackMem_eq hth, hpass, ok_bind, hstack, Option.getD_some]
  refine ⟨⟨fun h => ?_, fun h m' => ?_⟩, fun _ c => ?_, fun _ ls c hcalm hne hc => ?_⟩
  · exact ((h _).1 hcheck).2
  · rw [hcheck, threadInitstack_eq_self.2 h]
    simp [h, eq_comm]
  · have hsame : ∀ m0, (stackCall s m0 c).isOk = (stackCall s m c).isOk := by
      intro m0
      have hfst := congrArg Except.isOk (stackCall_fst (s := s) m0 m c)
      revert hfst
      cases stackCall s m0 c <;> cases stackCall s m c <;> exact id
    constructor
    · intro h
      by_cases hi : StackIntact m a
      · exact .inl hi
      · exact .inr fun m0 => (hsame m0).trans (h hi)
    · rintro (hi | hall) hnot
      · exact absurd hi hnot
      · exact hall m
  · rw [stackCall_returns hcalm hne hc]
    exact ⟨fun h => not_not.1 fun hnot => Bool.noConfusion (h hnot), fun hi hnot => absurd hi hnot⟩

/-- The thread that the boot thread has forked runs. -/
def forkedSched : Sched (Fin 2) Unit Unit :=
  schedNext (schedNext sampleSched sampleFork) (.switch .ready none none)

/-- A stack that has not run over is left alone.  A thread in user mode whose stack has run over is
not stopped when it yields. -/
theorem checkstack_detects_iff_forked :
    threadCheckstackMem forkedSched (threadInitstack (fun _ => 0) 4096) 1 =
      .ok (threadInitstack (fun _ => 0) 4096) ∧
    ¬ (¬ StackIntact (fun _ => 0) 4096 →
      (stackCall userSched (fun _ => 0) (.switch .ready none none)).isOk = false) := by
  have hintact : StackIntact (threadInitstack (fun _ => 0) 4096) 4096 := by
    rw [StackIntact]
    decide +kernel
  have hover : ¬ StackIntact (fun _ => 0) 4096 := by
    rw [StackIntact]
    decide +kernel
  refine ⟨((checkstack_detects_iff forkedSched _
    (show forkedSched.thread 1 = some ⟨.run, some 0, some 0, some 4096⟩ by decide) rfl).1.2 hintact
    _).2 ⟨rfl, hintact⟩, fun h => hover ?_⟩
  exact ((checkstack_detects_iff userSched _
    (show userSched.thread 1 = some ⟨.run, some 0, some 1, some 4096⟩ from rfl) rfl).2.2 rfl
    userLists (.switch .ready none none) userSched_calm userLists_ne_nil trivial).1 h

/-- The thread overwrites the first of the words.  It is not stopped when it calls `thread_switch`
or `thread_exit`. -/
theorem not_checkstack_detects : ∃ tr, SchedRun tr forkedSched ∧
    ∃ m : ByteMem, m = (threadInitstack (fun _ => 0) 4096).store 4096 0 ∧ ¬ StackIntact m 4096 ∧
      (threadCheckstackMem forkedSched m forkedSched.thisthread).map (·.load 4096) =
        .ok threadStackMagic ∧
      (stackCall forkedSched m (.switch .ready none none)).isOk = true ∧
      (stackCall forkedSched m (.exit true)).isOk = true := by
  refine ⟨_, sampleSched_fork.next (.switch .ready none none) rfl (by decide), _, rfl,
    fun h => absurd (h 0 (by decide)) ?_, ?_, ?_, ?_⟩
  · decide +kernel
  · decide +kernel
  · decide +kernel
  · decide +kernel

end JinxOS
