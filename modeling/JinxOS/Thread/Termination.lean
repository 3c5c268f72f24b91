import JinxOS.Thread.Runs

/-!
# The scheduler's loops end

The loops of `thread_exorcise` and `wchan_wakeall` run as long as `threadlist_remhead` finds a
thread.  Each time it does it asserts that `tl_count` is positive and lowers it, so `tl_count`
bounds the number of rounds whatever the nodes look like, and the rounds given to the loops in the
model are enough.

`spinlock_acquire` is a loop too, which on one CPU goes on for ever if the lock is taken, unless the
assertion in front of it stops the code: if it is this CPU that has the lock.  So the locks that are
taken have to be this CPU's (`Sched.LocksHeld`), which every call keeps: `schedStep_ends`.

`Ends P` is a weakest precondition, and each part of the code has a rule for it.
-/

namespace JinxOS

/-- The code stops: it returns something with `P`, or fails in some other way than by going on for
ever or waiting for a lock for ever. -/
def Ends {α : Type} (P : α → Prop) : Except Fault α → Prop
  | .ok a => P a
  | .error e => e ≠ .diverges ∧ e ≠ .spins

section
variable {α β : Type} {P : α → Prop} {Q : β → Prop} {x y : Except Fault α} {f : α → Except Fault β}

@[simp] theorem ends_ok (a : α) : Ends P (.ok a) ↔ P a := Iff.rfl

@[simp] theorem ends_error (e : Fault) : Ends P (.error e) ↔ e ≠ .diverges ∧ e ≠ .spins := Iff.rfl

@[simp] theorem ends_bind : Ends Q (x >>= f) ↔ Ends (fun a => Ends Q (f a)) x := by
  cases x <;> rfl

theorem Ends.mono {P' : α → Prop} (hx : Ends P x) (h : ∀ a, x = .ok a → P a → P' a) :
    Ends P' x := by
  cases x with
  | error e => exact hx
  | ok a => exact h a rfl hx

theorem Ends.bind (hx : Ends P x) (hf : ∀ a, x = .ok a → P a → Ends Q (f a)) : Ends Q (x >>= f) :=
  ends_bind.2 (hx.mono hf)

@[simp] theorem ends_ite {p : Prop} [Decidable p] :
    Ends P (if p then x else y) ↔ (p → Ends P x) ∧ (¬ p → Ends P y) := by
  split <;> simp [*]

@[simp] theorem ends_assert (P : Unit → Prop) (exp : String) (b : Bool) :
    Ends P (assert exp b) ↔ (b = true → P ()) := by
  cases b <;> simp [assert]

@[simp] theorem ends_deref (p : Option α) : Ends P (deref p) ↔ ∀ a, p = some a → P a := by
  cases p <;> simp [deref]

end

/-! ## Locks -/

/-- If the lock is taken, it is this CPU that has it. -/
def LockHeld (c : Cpu) (lk : Spinlock) : Prop := lk.locked = true → lk.cpu = c.thiscpu

/-- The CPU knows itself, and it has the spinlocks that are taken. -/
structure Sched.LocksHeld {T W K : Type} (s : Sched T W K) : Prop where
  thiscpu : s.cpu.thiscpu.isSome = true
  activeThreadsLock : LockHeld s.cpu s.activeThreadsLock
  lock : ∀ k, LockHeld s.cpu (s.lock k)
  procLock : ∀ p, LockHeld s.cpu (s.procLock p)

theorem lockHeld_holding (c : Cpu) : LockHeld c c.holding := fun _ => rfl

theorem lockHeld_init (c : Cpu) : LockHeld c spinlockInit := nofun

theorem spinlockAcquire_ends {c : Cpu} {lk : Spinlock} (hc : c.thiscpu.isSome = true)
    (hlk : LockHeld c lk) : Ends (· = (c.acquired, c.holding)) (spinlockAcquire c lk) := by
  obtain ⟨id, hid⟩ := Option.isSome_iff_exists.1 hc
  cases hlocked : lk.locked with
  | true => simp [spinlockAcquire, spinlockHeld, hlocked, hlk hlocked]
  | false =>
    simp [spinlockAcquire, cli, spinlockHeld, hlocked, hid, Cpu.acquired, Cpu.holding]

theorem spinlockRelease_ends {c : Cpu} (hc : c.thiscpu.isSome = true) (lk : Spinlock) :
    Ends (· = (c.released, spinlockInit)) (spinlockRelease c lk) := by
  obtain ⟨id, hid⟩ := Option.isSome_iff_exists.1 hc
  rw [spinlockRelease, ends_bind, ends_assert, hid]
  intro _
  cases hflag : c.iflag <;> simp [ifx, Cpu.released, spinlockInit, hid, hflag]

@[simp] theorem thiscpu_ifx (c : Cpu) (on : Bool) : (ifx c on).thiscpu = c.thiscpu := by
  cases on <;> rfl

theorem lockHeld_update {K : Type} [DecidableEq K] {c : Cpu} {lock : K → Spinlock} {k : K}
    {lk : Spinlock} (h : ∀ k, LockHeld c (lock k)) (hlk : LockHeld c lk) (k' : K) :
    LockHeld c (Function.update lock k lk k') := by
  rw [Function.update_apply]
  split
  · exact hlk
  · exact h k'

section
variable {T W K : Type} {s s' : Sched T W K}

/-- What `Sched.LocksHeld` reads: who this CPU is, and every spinlock. -/
def Sched.locks (s : Sched T W K) : Option Nat × Spinlock × (K → Spinlock) × (Nat → Spinlock) :=
  (s.cpu.thiscpu, s.activeThreadsLock, s.lock, s.procLock)

theorem Sched.LocksHeld.of_locks (h : s.LocksHeld) (hsame : s'.locks = s.locks) :
    s'.LocksHeld := by
  simp only [Sched.locks, Prod.mk.injEq] at hsame
  obtain ⟨hcpu, hactive, hlock, hproc⟩ := hsame
  refine ⟨hcpu ▸ h.thiscpu, ?_, ?_, ?_⟩
  · rw [LockHeld, hactive, hcpu]
    exact h.activeThreadsLock
  · rw [hlock]
    intro k
    rw [LockHeld, hcpu]
    exact h.lock k
  · rw [hproc]
    intro p
    rw [LockHeld, hcpu]
    exact h.procLock p

theorem Sched.LocksHeld.acquireActive (h : s.LocksHeld) : Ends LocksHeld s.acquireActive := by
  refine (spinlockAcquire_ends h.thiscpu h.activeThreadsLock).bind ?_
  rintro _ - rfl
  exact ⟨h.thiscpu, lockHeld_holding _, h.lock, h.procLock⟩

theorem Sched.LocksHeld.releaseActive (h : s.LocksHeld) : Ends LocksHeld s.releaseActive := by
  refine (spinlockRelease_ends h.thiscpu _).bind ?_
  rintro _ - rfl
  exact ⟨h.thiscpu, lockHeld_init _, h.lock, h.procLock⟩

theorem Sched.LocksHeld.lockProc (h : s.LocksHeld) (p : Nat) : Ends LocksHeld (s.lockProc p) := by
  refine (spinlockAcquire_ends h.thiscpu (h.procLock p)).bind ?_
  rintro _ - rfl
  refine Ends.bind (spinlockRelease_ends (c := s.cpu.acquired) h.thiscpu _) ?_
  rintro _ - rfl
  exact ⟨h.thiscpu, h.activeThreadsLock, h.lock, lockHeld_update h.procLock (lockHeld_init _)⟩

variable [DecidableEq K]

theorem Sched.LocksHeld.acquire (h : s.LocksHeld) (k : K) : Ends LocksHeld (s.acquire k) := by
  refine (spinlockAcquire_ends h.thiscpu (h.lock k)).bind ?_
  rintro _ - rfl
  exact ⟨h.thiscpu, h.activeThreadsLock, lockHeld_update h.lock (lockHeld_holding _), h.procLock⟩

theorem Sched.LocksHeld.release (h : s.LocksHeld) (k : K) : Ends LocksHeld (s.release k) := by
  refine (spinlockRelease_ends h.thiscpu _).bind ?_
  rintro _ - rfl
  exact ⟨h.thiscpu, h.activeThreadsLock, lockHeld_update h.lock (lockHeld_init _), h.procLock⟩

end

/-! ## Lists -/

section
variable {T L : Type} [DecidableEq T] [DecidableEq L] {s s' : Links T L} {l l' : L} {t : T}

theorem threadlistAddtail_ends (s : Links T L) (l : L) (t : T) :
    Ends (fun _ => True) (threadlistAddtail s l t) := by
  simp [threadlistAddtail, threadlistInsertbeforenode, insertNode]

theorem insertNode_count {p n : Option (Node T L)} (h : insertNode s t p n = .ok s') :
    s'.count = s.count := by
  obtain ⟨_, -, h⟩ := of_bind h
  obtain ⟨_, -, h⟩ := of_bind h
  obtain ⟨_, -, h⟩ := of_bind h
  obtain ⟨_, -, h⟩ := of_bind h
  cases h
  rfl

theorem threadlistAddtail_count (h : threadlistAddtail s l t = .ok s') (hne : l' ≠ l) :
    s'.count l' = s.count l' := by
  obtain ⟨s1, h1, h⟩ := of_bind h
  cases h
  rw [Links.count_setCount, if_neg hne, insertNode_count h1]

theorem threadlistRemhead_ends (s : Links T L) (l : L) :
    Ends (fun _ => True) (threadlistRemhead s l) := by
  simp [threadlistRemhead, threadlistRemovenode]

theorem threadlistRemovenode_count {n : Node T L} (h : threadlistRemovenode s n = .ok s') :
    s'.count = s.count := by
  obtain ⟨_, -, h⟩ := of_bind h
  obtain ⟨_, -, h⟩ := of_bind h
  obtain ⟨_, -, h⟩ := of_bind h
  obtain ⟨_, -, h⟩ := of_bind h
  cases h
  rfl

theorem threadlistRemhead_count (h : threadlistRemhead s l = .ok (some t, s')) :
    s'.count l < s.count l := by
  obtain ⟨n, -, h⟩ := of_bind h
  split at h
  · exact absurd (Prod.mk.inj (Except.ok.inj h)).1 (by simp)
  · obtain ⟨s1, h1, h⟩ := of_bind h
    obtain ⟨_, hpos, h⟩ := of_bind h
    obtain ⟨-, rfl⟩ := Prod.mk.inj (Except.ok.inj h)
    have hpos : 0 < s1.count l := by simpa [assert_ok] using hpos
    rw [Links.count_setCount, if_pos rfl, ← threadlistRemovenode_count h1]
    omega

end

variable {T W K : Type}

@[simp] theorem Sched.ends_get {P : Thread → Prop} (s : Sched T W K) (t : T) :
    Ends P (s.get t) ↔ ∀ th, s.thread t = some th → P th := by
  cases h : s.thread t <;> simp [Sched.get, h]

variable {s : Sched T W K}

theorem Sched.LocksHeld.assertOff (h : s.LocksHeld) : Ends LocksHeld s.assertOff := by
  rw [Sched.assertOff, ends_bind, ends_assert]
  exact fun _ => h.of_locks rfl

variable [DecidableEq T]

theorem Sched.LocksHeld.destroy (h : s.LocksHeld) (t : T) : Ends LocksHeld (threadDestroy s t) := by
  refine h.assertOff.bind fun s1 _ h1 => ?_
  simp only [ends_bind, ends_assert, ends_get, threadReturnstack, threadlistnodeCleanup]
  intros
  exact h1.of_locks rfl

theorem Sched.LocksHeld.addthread (h : s.LocksHeld) (proc : Option Nat) (t : T) (r : Nat) :
    Ends (fun a => a.2.LocksHeld) (procAddthread s proc t r) := by
  simp only [procAddthread, ends_bind, ends_get, ends_assert, ends_deref]
  intro _ _ _ p _
  refine (h.lockProc p).mono fun s1 _ h1 => ?_
  exact ends_ite.2 ⟨fun _ => h1, fun _ => h1.of_locks rfl⟩

theorem Sched.LocksHeld.remthread (h : s.LocksHeld) (t : T) (found : Bool) :
    Ends LocksHeld (procRemthread s t found) := by
  simp only [procRemthread, ends_bind, ends_get, ends_assert, ends_deref]
  intro _ _ _ p _
  refine (h.lockProc p).mono fun s1 _ h1 => ?_
  exact ends_ite.2 ⟨fun _ => h1.of_locks rfl, fun _ => by simp⟩

variable [DecidableEq W]

theorem Sched.LocksHeld.remhead (h : s.LocksHeld) (l : ListId W) :
    Ends (fun a => a.2.LocksHeld) (s.remhead l) :=
  (threadlistRemhead_ends s.links l).bind fun _ _ _ => h.of_locks rfl

theorem Sched.LocksHeld.addtail (h : s.LocksHeld) (l : ListId W) (t : T) :
    Ends LocksHeld (s.addtail l t) :=
  (threadlistAddtail_ends s.links l t).bind fun _ _ _ => h.of_locks rfl

theorem Sched.LocksHeld.makeRunnable (h : s.LocksHeld) (t : T) (b : Bool) :
    Ends LocksHeld (threadMakeRunnable s t b) := by
  simp only [threadMakeRunnable, ends_bind, ends_get, ends_deref]
  intro th _ _ _
  have henter : ∀ s : Sched T W K, s.LocksHeld → Ends LocksHeld (s.enterActive b) := by
    intro s h
    cases b with
    | false => exact h.acquireActive
    | true => exact ends_bind.2 ((ends_assert _ _ _).2 fun _ => h)
  refine (henter _ (h.of_locks (by rfl))).mono fun s1 _ h1 => ?_
  refine (h1.addtail _ t).mono fun s2 _ h2 => ends_ite.2 ⟨fun _ => by simp, fun _ => ?_⟩
  have hleave : Ends LocksHeld
      ({ s2 with madeRunnable := s2.madeRunnable ++ [t] }.leaveActive b) := by
    cases b with
    | false => exact Sched.LocksHeld.releaseActive (h2.of_locks rfl)
    | true => exact h2.of_locks rfl
  exact hleave.bind fun s3 _ h3 => h3.of_locks (by simp [Sched.locks])

/-! ## Loops -/

theorem Sched.remhead_count {s s' : Sched T W K} {l : ListId W} {t : T}
    (h : s.remhead l = .ok (some t, s')) : s'.links.count l < s.links.count l := by
  obtain ⟨links, hrem, rfl⟩ := Sched.remhead_ok h
  exact threadlistRemhead_count hrem

theorem threadExorciseLoop_ends (fuel : Nat) : ∀ s : Sched T W K, s.LocksHeld →
    s.links.count .zombieThreads < fuel → Ends Sched.LocksHeld (threadExorciseLoop fuel s) := by
  induction fuel with
  | zero => exact fun _ _ hlt => absurd hlt (by omega)
  | succ fuel ih =>
    intro s h hlt
    refine (h.remhead _).bind ?_
    rintro ⟨o, s1⟩ hok h1
    cases o with
    | none => exact h1
    | some t =>
      have hcount := Sched.remhead_count hok
      simp only [ends_bind, ends_assert, Sched.ends_get]
      intro _ _ _ _
      refine (h1.destroy t).mono fun s2 hs2 h2 => ih s2 h2 ?_
      rw [(threadDestroy_ok hs2).2]
      dsimp only
      omega

theorem Sched.LocksHeld.exorcise (h : s.LocksHeld) : Ends LocksHeld (threadExorcise s) :=
  h.assertOff.bind fun _ _ h1 => threadExorciseLoop_ends _ _ h1 (Nat.lt_succ_self _)

theorem wchanGrab_ends {wc : W} (fuel : Nat) : ∀ s : Sched T W K, s.LocksHeld →
    s.links.count (.wcThreads wc) < fuel → Ends Sched.LocksHeld (wchanGrab wc fuel s) := by
  induction fuel with
  | zero => exact fun _ _ hlt => absurd hlt (by omega)
  | succ fuel ih =>
    intro s h hlt
    refine (h.remhead _).bind ?_
    rintro ⟨o, s1⟩ hok h1
    cases o with
    | none => exact h1
    | some t =>
      refine (h1.addtail _ t).bind fun s2 hs2 h2 => ih s2 h2 ?_
      obtain ⟨links, hadd, hs2⟩ := of_bind hs2
      cases hs2
      have hcount := Sched.remhead_count hok
      have hsame : links.count (.wcThreads wc) = s1.links.count (.wcThreads wc) :=
        threadlistAddtail_count hadd (by simp)
      dsimp only
      omega

theorem wchanWakeGrabbed_ends (fuel : Nat) : ∀ s : Sched T W K, s.LocksHeld →
    s.links.count .wakeallList < fuel → Ends Sched.LocksHeld (wchanWakeGrabbed fuel s) := by
  induction fuel with
  | zero => exact fun _ _ hlt => absurd hlt (by omega)
  | succ fuel ih =>
    intro s h hlt
    refine (h.remhead _).bind ?_
    rintro ⟨o, s1⟩ hok h1
    cases o with
    | none => exact h1
    | some t =>
      refine (h1.makeRunnable t false).bind fun s2 hs2 h2 => ih s2 h2 ?_
      obtain ⟨th, links, -, hadd, hs2⟩ := threadMakeRunnable_ok hs2
      have hcount := Sched.remhead_count hok
      have hsame : links.count .wakeallList = s1.links.count .wakeallList :=
        threadlistAddtail_count hadd (by simp)
      rw [hs2]
      dsimp only
      omega

theorem Sched.LocksHeld.wakeall (h : s.LocksHeld) (wc : W) (lk : K) :
    Ends LocksHeld (wchanWakeall s wc lk) := by
  rw [wchanWakeall, ends_bind, ends_assert]
  intro _
  refine (wchanGrab_ends _ _ (h.of_locks (by rfl)) (Nat.lt_succ_self _)).bind fun s1 _ h1 => ?_
  refine (wchanWakeGrabbed_ends _ _ h1 (Nat.lt_succ_self _)).bind fun s2 _ h2 => ?_
  simp [threadlistCleanup, h2]

/-! ## Whole calls -/

theorem Sched.LocksHeld.wakeone (h : s.LocksHeld) (wc : W) (lk : K) :
    Ends LocksHeld (wchanWakeone s wc lk) := by
  rw [wchanWakeone, ends_bind, ends_assert]
  refine fun _ => (h.remhead _).bind ?_
  rintro ⟨o, s1⟩ - h1
  cases o with
  | none => exact h1
  | some t => exact h1.makeRunnable t false

theorem Sched.LocksHeld.forkNew (h : s.LocksHeld) (e : ForkEnv T) (on : Bool) (t : T) :
    Ends (fun a => a.2.LocksHeld) (threadForkNew s e on t) := by
  have hstack : ∀ P : Nat → Prop, (∀ a, P a) → Ends P (threadGetstack e.page) := by
    intro P hP
    cases h : e.page <;> simp [threadGetstack, hP]
  rw [threadForkNew, ends_bind]
  refine hstack _ fun stack => ?_
  simp only [ends_bind, Sched.ends_get, threadCheckstack, ends_assert]
  intro th _ th1 _ _ th2 _
  have hset : ∀ s : Sched T W K, s.LocksHeld → ∀ th, (s.set t th).LocksHeld :=
    fun _ h _ => h.of_locks rfl
  have h2 := hset _ (hset s h { th with stack := some stack }) { th2 with cpu := s.cpu.thiscpu }
  refine ends_ite.2 ⟨fun _ => ?_, fun _ => ?_⟩
  · exact (h2.destroy t).bind fun _ _ h3 => h3
  · simp only [ends_bind, Sched.ends_get]
    intro this _
    refine (h2.addthread _ t e.result).mono ?_
    rintro ⟨r, s3⟩ - h3
    refine ends_ite.2 ⟨fun _ => ?_, fun _ => ?_⟩
    · exact (h3.destroy t).bind fun _ _ h4 => h4
    · exact (h3.makeRunnable t false).bind fun _ _ h4 => h4.of_locks (by simp [Sched.locks])

theorem Sched.LocksHeld.fork (h : s.LocksHeld) (e : ForkEnv T) :
    Ends (fun a => a.2.LocksHeld) (threadFork s e) := by
  have h1 : (threadCreate { s with cpu := (cli s.cpu).2 } e.thread e.named).2.LocksHeld := by
    rw [threadCreate.eq_def]
    split
    · exact h.of_locks rfl
    · split
      · exact h.of_locks rfl
      · exact h.of_locks rfl
  rw [threadFork]
  dsimp only
  split
  · rename_i heq
    rw [heq] at h1
    exact h1
  · rename_i heq
    rw [heq] at h1
    exact h1.forkNew e _ _

theorem Sched.LocksHeld.switchNext (h : s.LocksHeld) (newstate : ThreadState) :
    Ends LocksHeld (threadSwitchNext s newstate) := by
  rw [threadSwitchNext, ends_bind, Sched.ends_get]
  intro this _
  refine (Sched.LocksHeld.remhead (h.of_locks (by rfl)) _).bind ?_
  rintro ⟨o, s1⟩ - h1
  cases o with
  | none => exact h1.releaseActive.bind fun _ _ _ => by simp
  | some next =>
    simp only [ends_bind, Sched.ends_get, ends_deref]
    intro th _ _ _
    exact (Sched.LocksHeld.releaseActive (h1.of_locks (by rfl))).mono fun _ _ h2 => h2.of_locks rfl

variable [DecidableEq K]

theorem Sched.LocksHeld.switchLeave (h : s.LocksHeld) (newstate : ThreadState) (wc : Option W)
    (lk : Option K) : Ends (fun a => a.2.LocksHeld) (threadSwitchLeave s newstate wc lk) := by
  cases newstate with
  | run => simp [threadSwitchLeave]
  | ready =>
    refine ends_ite.2 ⟨fun _ => ?_, fun _ => ?_⟩
    · exact h.releaseActive.bind fun _ _ h1 => h1
    · exact (h.makeRunnable _ true).bind fun _ _ h1 => h1
  | sleep =>
    simp only [threadSwitchLeave, ends_bind, ends_deref]
    intro wc _
    refine (h.addtail _ _).mono fun s1 _ h1 lk _ => ?_
    exact (Sched.LocksHeld.release (h1.of_locks (by rfl)) lk).mono fun _ _ h2 => h2
  | zombie => exact (h.addtail _ _).bind fun _ _ h1 => h1

theorem Sched.LocksHeld.switch (h : s.LocksHeld) (newstate : ThreadState) (wc : Option W)
    (lk : Option K) : Ends LocksHeld (threadSwitch s newstate wc lk) := by
  refine h.assertOff.bind fun s1 _ h1 => ?_
  simp only [ends_bind, Sched.ends_get, ends_assert]
  intro this _ _
  have hexorcise : Ends LocksHeld (if newstate ≠ .sleep then threadExorcise s1 else .ok s1) :=
    ends_ite.2 ⟨fun _ => h1.exorcise, fun _ => h1⟩
  refine hexorcise.mono fun s2 _ h2 => ends_ite.2 ⟨fun _ => h2, fun _ => ?_⟩
  simp only [ends_bind, threadCheckstack, Sched.ends_get, ends_assert]
  intro th _ _
  refine h2.acquireActive.mono fun s3 _ h3 => ?_
  refine (h3.switchLeave newstate wc lk).mono ?_
  rintro ⟨goesOn, s4⟩ - h4
  exact ends_ite.2 ⟨fun _ => h4.switchNext newstate, fun _ => h4⟩

end JinxOS
