import JinxOS.Cpu
import JinxOS.Lib.Runs
import JinxOS.Lib.WaitQueue

/-!
# Semaphores

`synch/semaphore.c`, with one step for each section under `sem_lock`, as for locks.  A `P` that
finds the count zero goes to sleep; each `V` wakes one sleeper, and the count it leaves behind may
be taken by a thread that was never asleep.

`sem_count` is an `unsigned` that `V` asserts not to have wrapped around, so a run has no overflow.
-/

namespace JinxOS

/-! ## The code -/

/-- `struct semaphore`. -/
structure Semaphore (T : Type) where
  count : Nat
  wchan : WaitQueue T

variable {T : Type} [DecidableEq T]

/-- The loop of `P`, from a test of the count on: the thread goes to sleep, or it takes one off the
count.  The answer says which. -/
def semaphoreTry (sem : Semaphore T) (t : T) : Except Fault (Bool × Semaphore T) :=
  if sem.count = 0 then .ok (false, { sem with wchan := sem.wchan.sleep t })
  else do
    assert "sem->sem_count > 0" (sem.count > 0)
    .ok (true, { sem with count := Word.sub sem.count 1 })

/-- `P`, up to the point where it releases `sem_lock` or goes to sleep. -/
def semaphoreP (sem : Semaphore T) (t : T) : Except Fault (Bool × Semaphore T) := semaphoreTry sem t

/-- `P` from the point where `wchan_sleep` returns. -/
def semaphorePAgain (sem : Semaphore T) (t : T) : Except Fault (Bool × Semaphore T) :=
  semaphoreTry { sem with wchan := sem.wchan.resume t } t

/-- `V`. -/
def semaphoreV (sem : Semaphore T) : Except Fault (Semaphore T) := do
  let sem := { sem with count := Word.add sem.count 1 }
  assert "sem->sem_count > 0" (sem.count > 0)
  .ok { sem with wchan := sem.wchan.wakeOne }

/-! ## Any number of threads -/

/-- The semaphore, and how often it has been used. -/
structure SemSys (T : Type) where
  /-- The semaphore. -/
  sem : Semaphore T
  /-- History: completed calls of `V`. -/
  raised : Nat
  /-- History: completed calls of `P`. -/
  lowered : Nat

/-- A new semaphore. -/
def SemSys.init (initialCount : Nat) : SemSys T := ⟨⟨initialCount, .empty⟩, 0, 0⟩

/-- The sections. -/
inductive SemOp (T : Type)
  /-- `P` is called. -/
  | p (t : T)
  /-- A woken thread goes on in `P`. -/
  | again (t : T)
  /-- `V` is called. -/
  | v (t : T)

/-- Who can do what: a thread in `P` goes on when it has been woken, the others call `P` and `V`. -/
def SemOp.Allowed (s : SemSys T) : SemOp T → Prop
  | .p t => ¬ s.sem.wchan.Inside t
  | .again t => t ∈ s.sem.wchan.woken
  | .v t => ¬ s.sem.wchan.Inside t

/-- The state after a section of `P`. -/
def SemSys.tried (s : SemSys T) (b : Bool) (sem : Semaphore T) : SemSys T :=
  { s with sem := sem, lowered := if b then s.lowered + 1 else s.lowered }

/-- The outcome of a section. -/
def semStep (s : SemSys T) : SemOp T → Except Fault (SemSys T)
  | .p t => do
    let (b, sem) ← semaphoreP s.sem t
    .ok (s.tried b sem)
  | .again t => do
    let (b, sem) ← semaphorePAgain s.sem t
    .ok (s.tried b sem)
  | .v _ => do
    let sem ← semaphoreV s.sem
    .ok { s with sem := sem, raised := s.raised + 1 }

/-- One section that returns. -/
def SemStep (s : SemSys T) (op : SemOp T) (s' : SemSys T) : Prop :=
  op.Allowed s ∧ semStep s op = .ok s'

/-- A run on a semaphore created with the given count. -/
def SemRun (initialCount : Nat) (tr : List (SemSys T × SemOp T)) (s : SemSys T) : Prop :=
  Run (fun s => s = .init initialCount) SemStep tr s

/-- The invariant of a semaphore. -/
structure SemInv (initialCount : Nat) (s : SemSys T) : Prop where
  range : s.sem.count < 2 ^ 32
  count : s.sem.count + s.lowered = initialCount + s.raised
  /-- For each unit that a sleeper might have there is a woken thread. -/
  awake : s.sem.wchan.asleep ≠ [] → s.sem.count ≤ s.sem.wchan.woken.length

section
variable {n : Nat} {s s' : SemSys T} {t : T} {b : Bool}

omit [DecidableEq T] in
theorem semaphoreTry_zero {sem : Semaphore T} (h : sem.count = 0) :
    semaphoreTry sem t = .ok (false, { sem with wchan := sem.wchan.sleep t }) := by
  rw [semaphoreTry, if_pos h]

omit [DecidableEq T] in
theorem semaphoreTry_pos {sem : Semaphore T} (h : 0 < sem.count) (hrange : sem.count < 2 ^ 32) :
    semaphoreTry sem t = .ok (true, { sem with count := sem.count - 1 }) := by
  rw [semaphoreTry, if_neg (by omega), decide_eq_true h, assert_true, ok_bind,
    Word.sub_eq h hrange]

omit [DecidableEq T] in
theorem semaphoreV_ok {sem sem' : Semaphore T} (hrange : sem.count < 2 ^ 32)
    (h : semaphoreV sem = .ok sem') :
    sem.count + 1 < 2 ^ 32 ∧ sem' = ⟨sem.count + 1, sem.wchan.wakeOne⟩ := by
  obtain ⟨count, q⟩ := sem
  rw [semaphoreV] at h
  dsimp only at h hrange ⊢
  by_cases hlt : count + 1 < 2 ^ 32
  · rw [Word.add_eq hlt, decide_eq_true (by omega), assert_true, ok_bind] at h
    exact ⟨hlt, (Except.ok.inj h).symm⟩
  · obtain rfl : count = 2 ^ 32 - 1 := by omega
    obtain ⟨_, hpos, -⟩ := of_bind h
    have hwrap : ¬ decide (Word.add (2 ^ 32 - 1) 1 > 0) = true := by clear * -; decide
    exact absurd (assert_ok.1 hpos) hwrap

omit [DecidableEq T] in
/-- A try keeps the invariant: the thread that makes it takes a unit or leaves none.  If it was a
woken thread it is none any longer. -/
theorem SemInv.tried (h : SemInv n s) {q : WaitQueue T} {sem' : Semaphore T}
    (hq : q.asleep = s.sem.wchan.asleep) (hlen : s.sem.wchan.woken.length ≤ q.woken.length + 1)
    (htry : semaphoreTry ⟨s.sem.count, q⟩ t = .ok (b, sem')) :
    SemInv n (s.tried b sem') := by
  have hrange := h.range
  have hcount := h.count
  rcases Nat.eq_zero_or_pos s.sem.count with hzero | hpos
  · have hslept : semaphoreTry ⟨s.sem.count, q⟩ t = .ok (false, ⟨s.sem.count, q.sleep t⟩) :=
      semaphoreTry_zero hzero
    obtain ⟨rfl, rfl⟩ := Prod.mk.inj (Except.ok.inj (hslept.symm.trans htry))
    exact ⟨h.range, h.count, fun _ => hzero.trans_le (Nat.zero_le _)⟩
  · have htaken : semaphoreTry ⟨s.sem.count, q⟩ t = .ok (true, ⟨s.sem.count - 1, q⟩) :=
      semaphoreTry_pos hpos hrange
    obtain ⟨rfl, rfl⟩ := Prod.mk.inj (Except.ok.inj (htaken.symm.trans htry))
    refine ⟨?_, ?_, fun hasleep => ?_⟩
    · simp only [SemSys.tried]
      omega
    · simp only [SemSys.tried, if_true]
      omega
    · have hawake := h.awake (hq ▸ hasleep)
      simp only [SemSys.tried]
      omega

theorem SemInv.v (h : SemInv n s) (hrun : semStep s (.v t) = .ok s') : SemInv n s' := by
  obtain ⟨sem', hv, hs'⟩ := of_bind hrun
  cases hs'
  obtain ⟨hlt, rfl⟩ := semaphoreV_ok h.range hv
  have hcount := h.count
  refine ⟨hlt, ?_, fun hasleep => ?_⟩
  · dsimp only
    omega
  · have hne : s.sem.wchan.asleep ≠ [] := by
      intro hnil
      simp [hnil] at hasleep
    have hawake := h.awake hne
    have hlen := WaitQueue.length_wakeOne hne
    dsimp only
    omega

theorem SemInv.step {op : SemOp T} (h : SemInv n s) (hstep : SemStep s op s') : SemInv n s' := by
  obtain ⟨hallowed, hrun⟩ := hstep
  cases op with
  | p t =>
    obtain ⟨⟨b, sem'⟩, htry, hs'⟩ := of_bind hrun
    cases hs'
    exact h.tried rfl (Nat.le_succ _) htry
  | again t =>
    obtain ⟨⟨b, sem'⟩, htry, hs'⟩ := of_bind hrun
    cases hs'
    exact h.tried (q := s.sem.wchan.resume t) rfl (WaitQueue.length_resume hallowed).ge htry
  | v t => exact h.v hrun

end

/-- **A semaphore conserves its units and strands no waiter.**  In every state that any interleaving
of any number of threads reaches, the count is the initial one plus the completed `V`s minus the
completed `P`s, and while a thread sleeps the count is at most the number of woken threads that have
yet to test it. -/
theorem semRun_conserves {initialCount : Nat} (hinit : initialCount < 2 ^ 32)
    {tr : List (SemSys T × SemOp T)} {s : SemSys T} (h : SemRun initialCount tr s) :
    (s.sem.count : Int) = initialCount + s.raised - s.lowered ∧
      (s.sem.wchan.asleep ≠ [] → s.sem.count ≤ s.sem.wchan.woken.length) := by
  have hstart : ∀ s : SemSys T, s = .init initialCount → SemInv initialCount s := by
    rintro _ rfl
    exact ⟨hinit, rfl, fun hne => absurd rfl hne⟩
  have hinv : SemInv initialCount s := Run.invariant hstart (fun _ _ _ hI hs => hI.step hs) h
  have hcount := hinv.count
  exact ⟨by omega, hinv.awake⟩

/-- One thread sleeps in `P`, another one calls `V`. -/
theorem semRun_conserves_sample :
    ∃ (tr : List (SemSys Bool × SemOp Bool)) (s : SemSys Bool), SemRun 0 tr s ∧
      s.sem.wchan = ⟨[], [false]⟩ ∧ (s.sem.count : Int) = (0 : Nat) + s.raised - s.lowered := by
  have hsleep : SemStep (.init 0) (.p false) ⟨⟨0, ⟨[false], []⟩⟩, 0, 0⟩ :=
    ⟨by simp [SemOp.Allowed, SemSys.init, WaitQueue.Inside, WaitQueue.empty], rfl⟩
  have hwake : SemStep ⟨⟨0, ⟨[false], []⟩⟩, 0, 0⟩ (.v true) ⟨⟨1, ⟨[], [false]⟩⟩, 1, 0⟩ :=
    ⟨by simp [SemOp.Allowed, WaitQueue.Inside], rfl⟩
  have hrun : SemRun 0 _ _ := Run.step (Run.step (Run.init rfl) hsleep) hwake
  exact ⟨_, _, hrun, rfl, (semRun_conserves (by decide) hrun).1⟩

end JinxOS
