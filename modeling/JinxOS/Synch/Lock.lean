import JinxOS.Cpu
import JinxOS.Lib.Runs
import JinxOS.Lib.WaitQueue

/-!
# Sleep locks

`synch/lock.c`: a recursive lock whose waiters sleep.  The code between `spinlock_acquire` and the
point where `lk_lock` is given up, be it by `spinlock_release` or by going to sleep, is one step.  A
thread that goes to sleep in `lock_acquire` releases `lk_lock`, is woken by a `lock_release`, and
tests the count again in a step of its own when it runs; other threads may take the lock in between.

The wait channel is a `WaitQueue`.  `wchan_sleep` asserts that `lk_lock` is held and is the only
spinlock held, which it is in these sections.

`lk_count` is an `int`, and nothing stops a thread from acquiring its lock `2 ^ 31` times; signed
overflow is taken to wrap around.  `lockRun_safe` is about runs in which that does not happen, and
`not_lockSafe_overflow` about one in which it does.
-/

namespace JinxOS

open Function (update update_self update_of_ne)

/-! ## The code -/

/-- `struct lock`. -/
structure Lock (T : Type) where
  owner : Option T
  count : Int
  wchan : WaitQueue T

variable {T : Type} [DecidableEq T]

/-- `lock_create`. -/
def lockCreate : Lock T := ⟨none, 0, .empty⟩

/-- `lock_holding`. -/
def lockHolding (lk : Lock T) (t : T) : Bool :=
  match lk.owner with
  | some u => u == t
  | none => false

/-- The end of `lock_acquire`. -/
def lockAcquireDone (lk : Lock T) (t : T) : Except Fault (Bool × Lock T) := do
  let lk := { lk with count := toInt (lk.count + 1) }
  assert "lock_holding(lock)" (lockHolding lk t)
  .ok (true, lk)

/-- The loop of `lock_acquire`, from a test of the count on: the thread goes to sleep, or it takes
the lock.  The answer says which. -/
def lockAcquireTry (lk : Lock T) (t : T) : Except Fault (Bool × Lock T) :=
  if lk.count > 0 then .ok (false, { lk with wchan := lk.wchan.sleep t })
  else do
    assert "lock->lk_count == 0" (lk.count == 0)
    assert "lock->lk_owner == NULL" lk.owner.isNone
    lockAcquireDone { lk with owner := some t } t

/-- `lock_acquire`, up to the point where it releases `lk_lock` or goes to sleep. -/
def lockAcquire (lk : Lock T) (t : T) : Except Fault (Bool × Lock T) :=
  if !lockHolding lk t then lockAcquireTry lk t else lockAcquireDone lk t

/-- `lock_acquire` from the point where `wchan_sleep` returns. -/
def lockAcquireAgain (lk : Lock T) (t : T) : Except Fault (Bool × Lock T) :=
  lockAcquireTry { lk with wchan := lk.wchan.resume t } t

/-- `lock_release`. -/
def lockRelease (lk : Lock T) (t : T) : Except Fault (Lock T) := do
  assert "lock_holding(lock)" (lockHolding lk t)
  assert "lock->lk_count > 0" (lk.count > 0)
  let lk := { lk with count := toInt (lk.count - 1) }
  if lk.count = 0 then .ok { lk with owner := none, wchan := lk.wchan.wakeOne }
  else .ok lk

/-! ## What the sections do -/

section
variable {lk lk' : Lock T} {t : T} {b : Bool}

theorem lockHolding_iff : lockHolding lk t = true ↔ lk.owner = some t := by
  cases h : lk.owner <;> simp [lockHolding, h]

theorem lockAcquire_owner (h : lk.owner = some t) :
    lockAcquire lk t = .ok (true, { lk with count := toInt (lk.count + 1) }) := by
  have hold : lockHolding lk t = true := lockHolding_iff.2 h
  have hold' : lockHolding { lk with count := toInt (lk.count + 1) } t = true := lockHolding_iff.2 h
  rw [lockAcquire, hold, if_neg (by simp), lockAcquireDone, hold', assert_true, ok_bind]

theorem lockAcquire_other (h : lk.owner ≠ some t) : lockAcquire lk t = lockAcquireTry lk t := by
  have hold : lockHolding lk t = false := by
    rw [← Bool.not_eq_true, lockHolding_iff]
    exact h
  rw [lockAcquire, hold, if_pos (by simp)]

theorem lockAcquireTry_taken (h : 0 < lk.count) :
    lockAcquireTry lk t = .ok (false, { lk with wchan := lk.wchan.sleep t }) := by
  rw [lockAcquireTry, if_pos h]

theorem lockAcquireTry_free (h : lk.count = 0) (ho : lk.owner = none) :
    lockAcquireTry lk t = .ok (true, { lk with owner := some t, count := 1 }) := by
  have hold : lockHolding { lk with owner := some t, count := toInt (lk.count + 1) } t = true :=
    lockHolding_iff.2 rfl
  rw [lockAcquireTry, if_neg (by omega), h, ho]
  rw [h] at hold
  simp only [beq_self_eq_true, assert_true, ok_bind, Option.isNone_none, lockAcquireDone,
    hold]
  rfl

theorem lockAcquireTry_ok (h : lockAcquireTry lk t = .ok (b, lk')) :
    b = false ∧ 0 < lk.count ∧ lk' = { lk with wchan := lk.wchan.sleep t } ∨
      b = true ∧ lk.count = 0 ∧ lk.owner = none ∧
        lk' = { lk with owner := some t, count := 1 } := by
  by_cases hc : 0 < lk.count
  · rw [lockAcquireTry_taken hc] at h
    cases h
    exact .inl ⟨rfl, hc, rfl⟩
  · have h' := h
    rw [lockAcquireTry, if_neg hc] at h'
    obtain ⟨_, hzero, h'⟩ := of_bind h'
    obtain ⟨_, hnone, -⟩ := of_bind h'
    have hzero : lk.count = 0 := by simpa [assert_ok] using hzero
    have hnone : lk.owner = none := by simpa [assert_ok] using hnone
    rw [lockAcquireTry_free hzero hnone] at h
    cases h
    exact .inr ⟨rfl, hzero, hnone, rfl⟩

theorem lockAcquire_done (h : lockAcquire lk t = .ok (true, lk')) : lk'.owner = some t := by
  by_cases ho : lk.owner = some t
  · rw [lockAcquire_owner ho] at h
    cases h
    exact ho
  · rw [lockAcquire_other ho] at h
    rcases lockAcquireTry_ok h with ⟨hb, -⟩ | ⟨-, -, -, rfl⟩
    · exact absurd hb (by simp)
    · rfl

theorem lockRelease_ok (h : lockRelease lk t = .ok lk') :
    lk.owner = some t ∧ 0 < lk.count ∧
      (toInt (lk.count - 1) = 0 ∧ lk' = ⟨none, 0, lk.wchan.wakeOne⟩ ∨
        toInt (lk.count - 1) ≠ 0 ∧ lk' = { lk with count := toInt (lk.count - 1) }) := by
  obtain ⟨_, hold, h⟩ := of_bind h
  obtain ⟨_, hpos, h⟩ := of_bind h
  refine ⟨lockHolding_iff.1 (assert_ok.1 hold), by simpa [assert_ok] using hpos, ?_⟩
  dsimp only at h
  split at h
  · rename_i hzero
    cases h
    exact .inl ⟨hzero, by rw [hzero]⟩
  · rename_i hne
    cases h
    exact .inr ⟨hne, rfl⟩

theorem lockRelease_one (ho : lk.owner = some t) (hone : lk.count = 1) :
    lockRelease lk t = .ok ⟨none, 0, lk.wchan.wakeOne⟩ := by
  have hzero : toInt (lk.count - 1) = 0 := by
    rw [hone]
    decide
  rw [lockRelease, lockHolding_iff.2 ho, assert_true, ok_bind, hone]
  simp only [hone] at hzero
  rw [decide_eq_true (by decide : (0 : Int) < 1), assert_true, ok_bind]
  simp only [hzero, if_true]

/-- Any section that a thread can execute. -/
inductive LockMove (u : T) (lk lk' : Lock T) : Prop
  /-- None at all. -/
  | none (h : lk' = lk)
  /-- Of `lock_acquire`. -/
  | acquire (b : Bool) (h : lockAcquire lk u = .ok (b, lk'))
  /-- Of `lock_acquire`, after a sleep. -/
  | again (b : Bool) (h : lockAcquireAgain lk u = .ok (b, lk'))
  /-- Of `lock_release`. -/
  | release (h : lockRelease lk u = .ok lk')

/-- A try does not make others owner, and does nothing to a lock that has one. -/
theorem lockAcquireTry_keeps {u : T} {q : WaitQueue T} (hu : u ≠ t)
    (h : lockAcquireTry { lk with wchan := q } u = .ok (b, lk')) :
    (lk'.owner = some t ↔ lk.owner = some t) ∧ (lk.owner = some t → lk'.count = lk.count) := by
  rcases lockAcquireTry_ok h with ⟨-, -, rfl⟩ | ⟨-, -, hnone, rfl⟩
  · exact ⟨Iff.rfl, fun _ => rfl⟩
  · have hnone : lk.owner = none := hnone
    simp [hnone, hu]

/-- **A thread's ownership is its own business**: what other threads do makes it neither gain nor
lose the lock, and does not change the depth at which it holds it. -/
theorem LockMove.keeps {u : T} (h : LockMove u lk lk') (hu : u ≠ t) :
    (lk'.owner = some t ↔ lk.owner = some t) ∧ (lk.owner = some t → lk'.count = lk.count) := by
  cases h with
  | none h => simp [h]
  | acquire b h =>
    by_cases ho : lk.owner = some u
    · rw [lockAcquire_owner ho] at h
      cases h
      simp [ho, hu]
    · rw [lockAcquire_other ho] at h
      exact lockAcquireTry_keeps hu h
  | again b h => exact lockAcquireTry_keeps hu h
  | release h =>
    obtain ⟨ho, -, ⟨-, rfl⟩ | ⟨-, rfl⟩⟩ := lockRelease_ok h
    · simp [ho, hu]
    · simp [ho, hu]

theorem LockMove.range {u : T} (h : LockMove u lk lk')
    (hr : -2 ^ 31 ≤ lk.count ∧ lk.count < 2 ^ 31) : -2 ^ 31 ≤ lk'.count ∧ lk'.count < 2 ^ 31 := by
  have htry : ∀ {q : WaitQueue T} {b : Bool},
      lockAcquireTry { lk with wchan := q } u = .ok (b, lk') →
        -2 ^ 31 ≤ lk'.count ∧ lk'.count < 2 ^ 31 := by
    intro q b h
    rcases lockAcquireTry_ok h with ⟨-, -, rfl⟩ | ⟨-, -, -, rfl⟩
    · exact hr
    · dsimp only
      omega
  cases h with
  | none h => exact h ▸ hr
  | acquire b h =>
    by_cases ho : lk.owner = some u
    · rw [lockAcquire_owner ho] at h
      cases h
      exact toInt_range _
    · rw [lockAcquire_other ho] at h
      exact htry h
  | again b h => exact htry h
  | release h =>
    obtain ⟨-, -, ⟨-, rfl⟩ | ⟨-, rfl⟩⟩ := lockRelease_ok h
    · dsimp only
      omega
    · exact toInt_range _

end

/-! ## Any number of threads

Each section under `lk_lock` is one step.  A thread that waits in `lock_acquire` is on the wait
queue; all other threads may call the two functions. -/

/-- The lock, and how often each thread has completed the two calls. -/
structure LockSys (T : Type) where
  /-- The lock. -/
  lock : Lock T
  /-- History: completed calls of `lock_acquire`. -/
  acquired : T → Nat
  /-- History: completed calls of `lock_release`. -/
  released : T → Nat

/-- A new lock. -/
def LockSys.init : LockSys T := ⟨lockCreate, fun _ => 0, fun _ => 0⟩

/-- The sections. -/
inductive LockOp (T : Type)
  /-- `lock_acquire` is called. -/
  | acquire (t : T)
  /-- A woken thread goes on in `lock_acquire`. -/
  | again (t : T)
  /-- `lock_release` is called. -/
  | release (t : T)

/-- Who can do what: a thread in `lock_acquire` goes on when it has been woken, the others call
`lock_acquire`, and a holder calls `lock_release`. -/
def LockOp.Allowed (s : LockSys T) : LockOp T → Prop
  | .acquire t => ¬ s.lock.wchan.Inside t
  | .again t => t ∈ s.lock.wchan.woken
  | .release t => lockHolding s.lock t = true ∧ ¬ s.lock.wchan.Inside t

/-- The state after a section of `lock_acquire`. -/
def LockSys.tried (s : LockSys T) (t : T) (b : Bool) (lk : Lock T) : LockSys T :=
  { s with lock := lk, acquired := if b then update s.acquired t (s.acquired t + 1)
                                   else s.acquired }

/-- The outcome of a section. -/
def lockStep (s : LockSys T) : LockOp T → Except Fault (LockSys T)
  | .acquire t => do
    let (b, lk) ← lockAcquire s.lock t
    .ok (s.tried t b lk)
  | .again t => do
    let (b, lk) ← lockAcquireAgain s.lock t
    .ok (s.tried t b lk)
  | .release t => do
    let lk ← lockRelease s.lock t
    .ok { s with lock := lk, released := update s.released t (s.released t + 1) }

/-- One section that returns. -/
def LockStep (s : LockSys T) (op : LockOp T) (s' : LockSys T) : Prop :=
  op.Allowed s ∧ lockStep s op = .ok s'

/-- A run on a new lock. -/
def LockRun (tr : List (LockSys T × LockOp T)) (s : LockSys T) : Prop :=
  Run (fun s => s = .init) LockStep tr s

/-- `lk_count` has room for another level. -/
def LockOp.Shallow (s : LockSys T) : LockOp T → Prop
  | .acquire t => s.lock.owner = some t → s.lock.count < 2 ^ 31 - 1
  | _ => True

/-- The invariant of a lock whose count has not overflowed. -/
structure LockInv (s : LockSys T) : Prop where
  free : s.lock.count = 0 ↔ s.lock.owner = none
  range : 0 ≤ s.lock.count ∧ s.lock.count < 2 ^ 31
  /-- The completed calls of each thread balance, but for the owner. -/
  balance : ∀ t, (s.acquired t : Int) - s.released t =
    if s.lock.owner = some t then s.lock.count else 0
  awake : s.lock.count = 0 → s.lock.wchan.asleep ≠ [] → s.lock.wchan.woken ≠ []

/-- What the lock promises. -/
structure LockSafe (s : LockSys T) : Prop where
  free : s.lock.count = 0 ↔ s.lock.owner = none
  /-- The owner is the one thread with more completed acquires than releases. -/
  holder : ∀ t, s.released t < s.acquired t ↔ s.lock.owner = some t
  depth : ∀ t, s.released t < s.acquired t → s.lock.count = s.acquired t - s.released t
  /-- No assertion in `lock_acquire` fails when it is called. -/
  acquires : ∀ t, (LockOp.acquire t).Allowed s → ∃ s', lockStep s (.acquire t) = .ok s'
  /-- No assertion in `lock_acquire` fails when it goes on. -/
  goes_on : ∀ t, (LockOp.again t).Allowed s → ∃ s', lockStep s (.again t) = .ok s'
  awake : s.lock.count = 0 → s.lock.wchan.asleep ≠ [] → ∃ t, t ∈ s.lock.wchan.woken

section
variable {s s' : LockSys T} {t : T}

theorem lockInv_init : LockInv (.init : LockSys T) :=
  ⟨⟨fun _ => rfl, fun _ => rfl⟩, ⟨Int.le_refl 0, (by decide : (0 : Int) < 2 ^ 31)⟩, fun _ => rfl,
    fun _ h => absurd rfl h⟩

theorem LockInv.tried (h : LockInv s) {q : WaitQueue T} {lk' : Lock T} {b : Bool}
    (htry : lockAcquireTry { s.lock with wchan := q } t = .ok (b, lk')) :
    LockInv (s.tried t b lk') := by
  rcases lockAcquireTry_ok htry with ⟨rfl, hpos, rfl⟩ | ⟨rfl, hzero, hnone, rfl⟩
  · refine ⟨h.free, h.range, h.balance, fun hzero => ?_⟩
    exact absurd hzero (Int.ne_of_gt hpos)
  · refine ⟨by simp [LockSys.tried], by simp [LockSys.tried], fun u => ?_, by simp [LockSys.tried]⟩
    have hu := h.balance u
    rw [show s.lock.owner = none from hnone, if_neg (by simp)] at hu
    by_cases hut : u = t
    · subst hut
      simp only [LockSys.tried, if_true, update_self]
      omega
    · have hne : t ≠ u := fun he => hut he.symm
      simp only [LockSys.tried, if_pos, update_of_ne hut, Option.some.injEq, if_neg hne]
      exact hu

theorem LockInv.acquire (h : LockInv s) (hshallow : (LockOp.acquire t).Shallow s)
    (hrun : lockStep s (.acquire t) = .ok s') : LockInv s' := by
  obtain ⟨⟨b, lk'⟩, htry, hs'⟩ := of_bind hrun
  cases hs'
  by_cases ho : s.lock.owner = some t
  · rw [lockAcquire_owner ho] at htry
    cases htry
    have hlt : s.lock.count < 2 ^ 31 - 1 := hshallow ho
    have hrange := h.range
    rw [toInt_eq]
    refine ⟨?_, ?_, fun u => ?_, fun hzero => ?_⟩
    · simp only [LockSys.tried, ho]
      exact ⟨fun he => by omega, fun he => by simp at he⟩
    · simp only [LockSys.tried]
      omega
    · have hu := h.balance u
      rw [ho] at hu
      by_cases hut : u = t
      · subst hut
        simp only [LockSys.tried, ho, if_true, update_self] at hu ⊢
        omega
      · simp only [LockSys.tried, ho, if_true, update_of_ne hut]
        have hne : t ≠ u := fun he => hut he.symm
        simpa [hne] using hu
    · simp only [LockSys.tried] at hzero
      omega
  · rw [lockAcquire_other ho] at htry
    exact h.tried htry

theorem LockInv.release (h : LockInv s) (hrun : lockStep s (.release t) = .ok s') :
    LockInv s' := by
  obtain ⟨lk', hrel, hs'⟩ := of_bind hrun
  cases hs'
  obtain ⟨ho, hpos, hcases⟩ := lockRelease_ok hrel
  have hrange := h.range
  rw [toInt_eq] at hcases
  have hbalance : ∀ u, (s.acquired u : Int) - update s.released t (s.released t + 1) u =
      if u = t then s.lock.count - 1 else 0 := by
    intro u
    have hu := h.balance u
    rw [ho] at hu
    by_cases hut : u = t
    · subst hut
      simp only [if_true, update_self] at hu ⊢
      omega
    · have hne : t ≠ u := fun he => hut he.symm
      simpa [hut, hne] using hu
  rcases hcases with ⟨hzero, rfl⟩ | ⟨hne, rfl⟩
  · refine ⟨by simp, by simp, fun u => ?_, fun _ hasleep => ?_⟩
    · rw [hbalance u, hzero]
      simp
    · rw [WaitQueue.asleep_wakeOne] at hasleep
      rw [WaitQueue.woken_wakeOne]
      cases hq : s.lock.wchan.asleep with
      | nil => simp [hq] at hasleep
      | cons x xs => simp
  · refine ⟨?_, by dsimp only; omega, fun u => ?_, fun hzero => absurd hzero hne⟩
    · simp only [ho]
      exact ⟨fun he => absurd he hne, fun he => by simp at he⟩
    · simp only [hbalance u, ho, Option.some.injEq, eq_comm]

theorem LockInv.step {op : LockOp T} (h : LockInv s) (hshallow : op.Shallow s)
    (hstep : LockStep s op s') : LockInv s' := by
  obtain ⟨-, hrun⟩ := hstep
  cases op with
  | acquire t => exact h.acquire hshallow hrun
  | again t =>
    obtain ⟨⟨b, lk'⟩, htry, hs'⟩ := of_bind hrun
    cases hs'
    exact h.tried htry
  | release t => exact h.release hrun

theorem LockInv.try_returns (h : LockInv s) (q : WaitQueue T) :
    ∃ r, lockAcquireTry { s.lock with wchan := q } t = .ok r := by
  by_cases hpos : 0 < s.lock.count
  · exact ⟨_, lockAcquireTry_taken hpos⟩
  · have hzero : s.lock.count = 0 := by
      have := h.range
      omega
    exact ⟨_, lockAcquireTry_free hzero (h.free.1 hzero)⟩

theorem LockInv.safe (h : LockInv s) : LockSafe s := by
  have hdiff : ∀ t, s.released t < s.acquired t → s.lock.owner = some t := by
    intro t hlt
    have ht := h.balance t
    by_contra hne
    rw [if_neg hne] at ht
    omega
  refine ⟨h.free, fun t => ⟨hdiff t, fun ho => ?_⟩, fun t hlt => ?_, fun t _ => ?_, fun t _ => ?_,
    ?_⟩
  · have ht := h.balance t
    have hpos : s.lock.count ≠ 0 := fun hzero => by simp [h.free.1 hzero] at ho
    have hrange := h.range
    rw [if_pos ho] at ht
    omega
  · have ht := h.balance t
    rw [if_pos (hdiff t hlt)] at ht
    exact ht.symm
  · by_cases ho : s.lock.owner = some t
    · exact ⟨_, by rw [lockStep, lockAcquire_owner ho, ok_bind]⟩
    · obtain ⟨⟨b, lk'⟩, hr⟩ := h.try_returns s.lock.wchan
      exact ⟨_, by rw [lockStep, lockAcquire_other ho, hr, ok_bind]⟩
  · obtain ⟨⟨b, lk'⟩, hr⟩ := h.try_returns (s.lock.wchan.resume t)
    exact ⟨_, by rw [lockStep, lockAcquireAgain, hr, ok_bind]⟩
  · exact fun hzero hasleep => List.exists_mem_of_ne_nil _ (h.awake hzero hasleep)

end

/-- **A sleep lock is safe** as long as its count does not overflow.  In every state that any
interleaving of any number of threads reaches, the count is zero exactly if nobody owns the lock,
the owner is the one thread with more completed acquires than releases and the count is the
difference, `lock_acquire` trips no assertion, and when the lock is free while threads sleep on its
channel then some woken thread has yet to test the count. -/
theorem lockRun_safe {tr : List (LockSys T × LockOp T)} {s : LockSys T} (h : LockRun tr s)
    (hshallow : ∀ e ∈ tr, e.2.Shallow e.1) : LockSafe s := by
  have hinit : ∀ s : LockSys T, s = .init → LockInv s := by
    rintro _ rfl
    exact lockInv_init
  have hinv : LockInv s := Run.invariant_of (C := fun s op => op.Shallow s) hinit
    (fun _ _ _ hI hC hs => hI.step hC hs) h hshallow
  exact hinv.safe

/-! ## Overflow -/

/-- The state in which one thread has acquired the lock `n` times. -/
def nested (n : Nat) (count : Int) : LockSys Unit :=
  ⟨⟨some (), count, .empty⟩, fun _ => n, fun _ => 0⟩

theorem lockStep_nested (n : Nat) (count : Int) :
    LockStep (nested n count) (.acquire ()) (nested (n + 1) (toInt (count + 1))) := by
  refine ⟨by simp [LockOp.Allowed, nested, WaitQueue.Inside, WaitQueue.empty], ?_⟩
  rw [lockStep, lockAcquire_owner rfl, ok_bind]
  simp only [LockSys.tried, nested, if_true, Except.ok.injEq, LockSys.mk.injEq, true_and, and_true]
  funext u
  simp

theorem exists_nested_run (n : Nat) (hn : n + 1 < 2 ^ 31) :
    ∃ tr, LockRun tr (nested (n + 1) (n + 1)) ∧ ∀ e ∈ tr, e.2.Shallow e.1 := by
  induction n with
  | zero =>
    have hstep : LockStep LockSys.init (.acquire ()) (nested 1 1) := by
      refine ⟨by simp [LockOp.Allowed, LockSys.init, lockCreate, WaitQueue.Inside,
        WaitQueue.empty], ?_⟩
      rw [lockStep, lockAcquire_other (by simp [LockSys.init, lockCreate]),
        lockAcquireTry_free rfl rfl, ok_bind]
      simp only [LockSys.tried, LockSys.init, nested, if_true, lockCreate, Except.ok.injEq,
        LockSys.mk.injEq, true_and, and_true]
      funext u
      simp
    refine ⟨_, Run.step (Run.init rfl) hstep, ?_⟩
    simp [LockOp.Shallow, LockSys.init, lockCreate]
  | succ n ih =>
    obtain ⟨tr, hrun, hshallow⟩ := ih (by omega)
    have hstep := lockStep_nested (n + 1) ((n : Int) + 1)
    rw [toInt_eq] at hstep
    refine ⟨_, Run.step hrun (by exact_mod_cast hstep), ?_⟩
    rintro e he
    rcases List.mem_cons.1 he with rfl | he
    · intro _
      simp only [nested]
      omega
    · exact hshallow e he

/-- A thread takes the lock twice, and another one has to wait.  When the first thread has released
the lock twice, the second one gets it. -/
theorem lockRun_safe_handover : ∃ (tr : List (LockSys Bool × LockOp Bool)) (s : LockSys Bool),
    LockRun tr s ∧ tr.length = 6 ∧ s.released false = 2 ∧ s.lock.owner = some true ∧
      LockSafe s := by
  have hnext : ∀ {tr : List (LockSys Bool × LockOp Bool)} {s : LockSys Bool} (op : LockOp Bool),
      LockRun tr s → op.Allowed s → (lockStep s op).isOk = true →
        LockRun ((s, op) :: tr) ((lockStep s op).okD s) :=
    fun op h ha hok => Run.step h ⟨ha, Except.eq_ok_okD hok _⟩
  have htwice := hnext (.acquire false) (hnext (.acquire false) (Run.init rfl)
    (by unfold LockOp.Allowed WaitQueue.Inside; decide) (by decide))
    (by unfold LockOp.Allowed WaitQueue.Inside; decide) (by decide)
  have hwaits := hnext (.acquire true) htwice
    (by unfold LockOp.Allowed WaitQueue.Inside; decide) (by decide)
  have hfree := hnext (.release false) (hnext (.release false) hwaits
    (by unfold LockOp.Allowed WaitQueue.Inside; decide) (by decide))
    (by unfold LockOp.Allowed WaitQueue.Inside; decide) (by decide)
  have hrun := hnext (.again true) hfree (by unfold LockOp.Allowed; decide) (by decide)
  refine ⟨_, _, hrun, rfl, by decide, by decide, lockRun_safe hrun ?_⟩
  simp only [List.forall_mem_cons]
  exact ⟨trivial, trivial, trivial, fun _ => by decide, fun _ => by decide, fun _ => by decide,
    by simp⟩

/-- With `2 ^ 31` levels the count is negative. -/
theorem not_lockSafe_overflow :
    ∃ (tr : List (LockSys Unit × LockOp Unit)) (s : LockSys Unit), LockRun tr s ∧ ¬ LockSafe s := by
  obtain ⟨tr, hrun, -⟩ := exists_nested_run (2 ^ 31 - 2) (by omega)
  refine ⟨_, _, Run.step hrun (lockStep_nested _ _), fun hsafe => ?_⟩
  have hdepth := hsafe.depth () (by simp [nested])
  simp [nested, toInt, Int.bmod_def] at hdepth

end JinxOS
