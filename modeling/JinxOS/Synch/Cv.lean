import JinxOS.Synch.Lock

/-!
# Condition variables

`synch/cv.c` over `synch/lock.c`: any number of threads, one lock, and any number of condition
variables that are used with it.  The steps are the sections under `lk_lock`, and the parts of the
three functions of `cv.c` between them, so that every way in which other threads can get in between
is a run.  `cv_wait`, `cv_signal` and `cv_broadcast` hold `cv_splock` across the release of the
lock; `cv_wait` gives `cv_splock` up when it goes to sleep and takes it again when it wakes up.

Where a thread is in these functions is its `Pc`, which also keeps what the theorems have to know
about the call: the depth at which `cv_wait` was called, and the threads that were waiting when
`cv_signal` or `cv_broadcast` took `cv_splock`.  The code reads neither.
-/

namespace JinxOS

/-! ## The code -/

/-- `struct cv`. -/
structure Cv (T : Type) where
  /-- The thread that holds `cv_splock`. -/
  splock : Option T
  wchan : WaitQueue T

/-- A call of a function of `cv.c`. -/
inductive CvCall (T C : Type)
  /-- `cv_wait`, by a thread that holds the lock at depth `d`. -/
  | wait (c : C) (d : Int)
  /-- `cv_signal`, or `cv_broadcast` if `all` is set, which found the threads `ws` waiting. -/
  | wake (c : C) (all : Bool) (ws : List T)
  deriving DecidableEq

/-- The condition variable that a call is about. -/
def CvCall.cv {T C : Type} : CvCall T C → C
  | .wait c _ => c
  | .wake c _ _ => c

/-- Where a thread is. -/
inductive Pc (T C : Type)
  /-- Outside. -/
  | idle
  /-- The call has taken `cv_splock`. -/
  | entered (k : CvCall T C)
  /-- The call has released the lock, and holds `cv_splock`. -/
  | released (k : CvCall T C)
  /-- `cv_wait` is in `wchan_sleep`, from going to sleep to running again. -/
  | asleep (c : C) (d : Int)
  /-- `cv_wait` has taken `cv_splock` again. -/
  | relocked (c : C) (d : Int)
  /-- `cv_signal` or `cv_broadcast` has woken threads, and holds `cv_splock`. -/
  | woke (c : C) (all : Bool) (ws : List T)
  /-- The call has given up `cv_splock` and is about to take the lock again. -/
  | reacquire (k : CvCall T C)
  /-- In `wchan_sleep` of `lock_acquire`, at the end of a call or in a `lock_acquire` of its own. -/
  | inAcquire (k : Option (CvCall T C))
  deriving DecidableEq

/-- A lock and its condition variables. -/
structure CvSys (T C : Type) where
  /-- The lock. -/
  lock : Lock T
  /-- The condition variables. -/
  cv : C → Cv T
  /-- Where the threads are. -/
  pc : T → Pc T C
  /-- History: the threads that have released the lock in `cv_wait` and have not been made runnable
  since, in the order in which they released it. -/
  waiting : C → List T

variable {T C : Type} [DecidableEq T] [DecidableEq C]

/-- A thread goes on to a point. -/
def CvSys.goto (s : CvSys T C) (t : T) (p : Pc T C) : CvSys T C :=
  { s with pc := Function.update s.pc t p }

/-- An assignment to a condition variable. -/
def CvSys.setCv (s : CvSys T C) (c : C) (x : Cv T) : CvSys T C :=
  { s with cv := Function.update s.cv c x }

/-- A section of `lock_acquire` is over: it has returned, or the thread is asleep. -/
def CvSys.tried (s : CvSys T C) (t : T) (k : Option (CvCall T C)) (b : Bool) (lk : Lock T) :
    CvSys T C :=
  { s with lock := lk }.goto t (if b then .idle else .inAcquire k)

/-- The lock has been released in a function of `cv.c`. -/
def CvSys.gaveUp (s : CvSys T C) (t : T) (k : CvCall T C) (lk : Lock T) : CvSys T C :=
  let waiting := match k with
    | .wait c _ => Function.update s.waiting c (s.waiting c ++ [t])
    | .wake .. => s.waiting
  { s with lock := lk, waiting := waiting }.goto t (.released k)

/-- `lock_release(lock)` in a function of `cv.c`. -/
def cvRelease (s : CvSys T C) (t : T) (k : CvCall T C) : Except Fault (CvSys T C) := do
  let lk ← lockRelease s.lock t
  .ok (s.gaveUp t k lk)

/-- The thread is on the channel, and off the CPU. -/
def CvSys.slept (s : CvSys T C) (t : T) (c : C) (d : Int) : CvSys T C :=
  (s.setCv c ⟨none, (s.cv c).wchan.sleep t⟩).goto t (.asleep c d)

/-- `wchan_sleep(cv->cv_wchan, &cv->cv_splock)`, until the thread is off the CPU. -/
def cvSleep (s : CvSys T C) (t : T) (c : C) (d : Int) : Except Fault (CvSys T C) := do
  assert "spinlock_held(lk)" ((s.cv c).splock == some t)
  .ok (s.slept t c d)

/-- The first sleeper, or all of them, have been made runnable. -/
def CvSys.woke (s : CvSys T C) (t : T) (c : C) (all : Bool) (ws : List T) : CvSys T C :=
  let q := (s.cv c).wchan
  let runnable := if all then q.asleep else q.asleep.head?.toList
  let s := { s with waiting := Function.update s.waiting c ((s.waiting c).diff runnable) }
  (s.setCv c { s.cv c with wchan := if all then q.wakeAll else q.wakeOne }).goto t (.woke c all ws)

/-- `wchan_wakeone(cv->cv_wchan, &cv->cv_splock)`, or `wchan_wakeall`. -/
def cvWake (s : CvSys T C) (t : T) (c : C) (all : Bool) (ws : List T) :
    Except Fault (CvSys T C) := do
  assert "spinlock_held(lk)" ((s.cv c).splock == some t)
  .ok (s.woke t c all ws)

/-- `wchan_sleep` takes `cv_splock` when the thread runs again. -/
def cvRelock (s : CvSys T C) (t : T) (c : C) (d : Int) : CvSys T C :=
  (s.setCv c ⟨some t, (s.cv c).wchan.resume t⟩).goto t (.relocked c d)

/-- `spinlock_release(&cv->cv_splock)`. -/
def cvUnlock (s : CvSys T C) (t : T) (k : CvCall T C) : CvSys T C :=
  (s.setCv k.cv { s.cv k.cv with splock := none }).goto t (.reacquire k)

/-- The next step of a thread in one of the functions. -/
def cvGo (s : CvSys T C) (t : T) : Except Fault (CvSys T C) :=
  match s.pc t with
  | .idle => .ok s
  | .entered k => cvRelease s t k
  | .released (.wait c d) => cvSleep s t c d
  | .released (.wake c all ws) => cvWake s t c all ws
  | .asleep c d => .ok (cvRelock s t c d)
  | .relocked c d => .ok (cvUnlock s t (.wait c d))
  | .woke c all ws => .ok (cvUnlock s t (.wake c all ws))
  | .reacquire k => do
    let (b, lk) ← lockAcquire s.lock t
    .ok (s.tried t (some k) b lk)
  | .inAcquire k => do
    let (b, lk) ← lockAcquireAgain s.lock t
    .ok (s.tried t k b lk)

/-- What a thread can do. -/
inductive CvOp (C : Type)
  /-- Call `lock_acquire`. -/
  | lockAcquire
  /-- Call `lock_release`. -/
  | lockRelease
  /-- Call `cv_wait`. -/
  | wait (c : C)
  /-- Call `cv_signal`. -/
  | signal (c : C)
  /-- Call `cv_broadcast`. -/
  | broadcast (c : C)
  /-- Go on in a call. -/
  | go

/-- `spinlock_acquire(&cv->cv_splock)` at the start of a call. -/
def cvEnter (s : CvSys T C) (t : T) (k : CvCall T C) : CvSys T C :=
  (s.setCv k.cv { s.cv k.cv with splock := some t }).goto t (.entered k)

/-- The outcome of a step. -/
def cvStep (s : CvSys T C) (t : T) : CvOp C → Except Fault (CvSys T C)
  | .lockAcquire => do
    let (b, lk) ← lockAcquire s.lock t
    .ok (s.tried t none b lk)
  | .lockRelease => do
    let lk ← lockRelease s.lock t
    .ok { s with lock := lk }
  | .wait c => .ok (cvEnter s t (.wait c s.lock.count))
  | .signal c => .ok (cvEnter s t (.wake c false (s.waiting c)))
  | .broadcast c => .ok (cvEnter s t (.wake c true (s.waiting c)))
  | .go => cvGo s t

/-- When a thread can take a step: calls are made from outside, a spinlock is taken when it is free,
and a sleeper goes on when it has been woken. -/
def CvOp.Allowed (s : CvSys T C) (t : T) : CvOp C → Prop
  | .lockAcquire => s.pc t = .idle
  | .lockRelease => s.pc t = .idle
  | .wait c => s.pc t = .idle ∧ (s.cv c).splock = none
  | .signal c => s.pc t = .idle ∧ (s.cv c).splock = none
  | .broadcast c => s.pc t = .idle ∧ (s.cv c).splock = none
  | .go => match s.pc t with
    | .idle => False
    | .asleep c _ => t ∈ (s.cv c).wchan.woken ∧ (s.cv c).splock = none
    | .inAcquire _ => t ∈ s.lock.wchan.woken
    | _ => True

instance (s : CvSys T C) (t : T) : (op : CvOp C) → Decidable (op.Allowed s t)
  | .lockAcquire => inferInstanceAs (Decidable (s.pc t = .idle))
  | .lockRelease => inferInstanceAs (Decidable (s.pc t = .idle))
  | .wait c => inferInstanceAs (Decidable (s.pc t = .idle ∧ (s.cv c).splock = none))
  | .signal c => inferInstanceAs (Decidable (s.pc t = .idle ∧ (s.cv c).splock = none))
  | .broadcast c => inferInstanceAs (Decidable (s.pc t = .idle ∧ (s.cv c).splock = none))
  | .go => by
    unfold CvOp.Allowed
    exact match s.pc t with
      | .idle => inferInstanceAs (Decidable False)
      | .asleep c _ =>
        inferInstanceAs (Decidable (t ∈ (s.cv c).wchan.woken ∧ (s.cv c).splock = none))
      | .inAcquire _ => inferInstanceAs (Decidable (t ∈ s.lock.wchan.woken))
      | .entered _ | .released _ | .relocked .. | .woke .. | .reacquire _ =>
        inferInstanceAs (Decidable True)

/-- One step that returns. -/
def CvStep (s : CvSys T C) (a : T × CvOp C) (s' : CvSys T C) : Prop :=
  a.2.Allowed s a.1 ∧ cvStep s a.1 a.2 = .ok s'

/-- A new lock and new condition variables. -/
def CvSys.init : CvSys T C := ⟨lockCreate, fun _ => ⟨none, .empty⟩, fun _ => .idle, fun _ => []⟩

/-- A run on a new lock and new condition variables. -/
def CvRun (tr : List (CvSys T C × (T × CvOp C))) (s : CvSys T C) : Prop :=
  Run (fun s => s = .init) CvStep tr s

/-! ## The steps one by one -/

/-- Every step that a thread can take, with the point at which it takes it. -/
inductive CvMove (s : CvSys T C) (t : T) : CvOp C → CvSys T C → Prop
  /-- `lock_acquire` is called. -/
  | acquire (b : Bool) (lk : Lock T) (hpc : s.pc t = .idle)
      (hlk : lockAcquire s.lock t = .ok (b, lk)) : CvMove s t .lockAcquire (s.tried t none b lk)
  /-- `lock_release` is called. -/
  | release (lk : Lock T) (hpc : s.pc t = .idle) (hlk : lockRelease s.lock t = .ok lk) :
      CvMove s t .lockRelease { s with lock := lk }
  /-- `cv_wait` is called. -/
  | wait (c : C) (hpc : s.pc t = .idle) (hfree : (s.cv c).splock = none) :
      CvMove s t (.wait c) (cvEnter s t (.wait c s.lock.count))
  /-- `cv_signal` is called. -/
  | signal (c : C) (hpc : s.pc t = .idle) (hfree : (s.cv c).splock = none) :
      CvMove s t (.signal c) (cvEnter s t (.wake c false (s.waiting c)))
  /-- `cv_broadcast` is called. -/
  | broadcast (c : C) (hpc : s.pc t = .idle) (hfree : (s.cv c).splock = none) :
      CvMove s t (.broadcast c) (cvEnter s t (.wake c true (s.waiting c)))
  /-- The lock is released. -/
  | giveUp (k : CvCall T C) (lk : Lock T) (hpc : s.pc t = .entered k)
      (hlk : lockRelease s.lock t = .ok lk) : CvMove s t .go (s.gaveUp t k lk)
  /-- `cv_wait` goes to sleep. -/
  | sleep (c : C) (d : Int) (hpc : s.pc t = .released (.wait c d)) :
      CvMove s t .go (s.slept t c d)
  /-- `cv_signal` or `cv_broadcast` wakes threads. -/
  | wake (c : C) (all : Bool) (ws : List T) (hpc : s.pc t = .released (.wake c all ws)) :
      CvMove s t .go (s.woke t c all ws)
  /-- `cv_wait` has been woken. -/
  | relock (c : C) (d : Int) (hpc : s.pc t = .asleep c d) (hwoken : t ∈ (s.cv c).wchan.woken)
      (hfree : (s.cv c).splock = none) : CvMove s t .go (cvRelock s t c d)
  /-- `cv_wait` gives `cv_splock` up. -/
  | unlockWait (c : C) (d : Int) (hpc : s.pc t = .relocked c d) :
      CvMove s t .go (cvUnlock s t (.wait c d))
  /-- `cv_signal` or `cv_broadcast` gives `cv_splock` up. -/
  | unlockWake (c : C) (all : Bool) (ws : List T) (hpc : s.pc t = .woke c all ws) :
      CvMove s t .go (cvUnlock s t (.wake c all ws))
  /-- The lock is taken again. -/
  | reacquire (k : CvCall T C) (b : Bool) (lk : Lock T) (hpc : s.pc t = .reacquire k)
      (hlk : lockAcquire s.lock t = .ok (b, lk)) : CvMove s t .go (s.tried t (some k) b lk)
  /-- `lock_acquire` has been woken. -/
  | again (k : Option (CvCall T C)) (b : Bool) (lk : Lock T) (hpc : s.pc t = .inAcquire k)
      (hwoken : t ∈ s.lock.wchan.woken) (hlk : lockAcquireAgain s.lock t = .ok (b, lk)) :
      CvMove s t .go (s.tried t k b lk)

section
variable {s s' : CvSys T C} {t u : T} {op : CvOp C}

theorem cvGo_move (hallowed : CvOp.go.Allowed s t) (h : cvGo s t = .ok s') :
    CvMove s t .go s' := by
  rw [CvOp.Allowed] at hallowed
  rw [cvGo] at h
  cases hpc : s.pc t with
  | idle =>
    rw [hpc] at hallowed
    exact hallowed.elim
  | entered k =>
    rw [hpc] at h
    obtain ⟨lk, hlk, h⟩ := of_bind h
    cases h
    exact .giveUp k lk hpc hlk
  | released k =>
    rw [hpc] at h
    cases k with
    | wait c d =>
      obtain ⟨_, -, h⟩ := of_bind h
      cases h
      exact .sleep c d hpc
    | wake c all ws =>
      obtain ⟨_, -, h⟩ := of_bind h
      cases h
      exact .wake c all ws hpc
  | asleep c d =>
    rw [hpc] at h hallowed
    cases h
    exact .relock c d hpc hallowed.1 hallowed.2
  | relocked c d =>
    rw [hpc] at h
    cases h
    exact .unlockWait c d hpc
  | woke c all ws =>
    rw [hpc] at h
    cases h
    exact .unlockWake c all ws hpc
  | reacquire k =>
    rw [hpc] at h
    obtain ⟨⟨b, lk⟩, hlk, h⟩ := of_bind h
    cases h
    exact .reacquire k b lk hpc hlk
  | inAcquire k =>
    rw [hpc] at h hallowed
    obtain ⟨⟨b, lk⟩, hlk, h⟩ := of_bind h
    cases h
    exact .again k b lk hpc hallowed hlk

/-- **What a step can do.** -/
theorem CvStep.move (h : CvStep s (t, op) s') : CvMove s t op s' := by
  obtain ⟨hallowed, h⟩ := h
  cases op with
  | lockAcquire =>
    obtain ⟨⟨b, lk⟩, hlk, h⟩ := of_bind h
    cases h
    exact .acquire b lk hallowed hlk
  | lockRelease =>
    obtain ⟨lk, hlk, h⟩ := of_bind h
    cases h
    exact .release lk hallowed hlk
  | wait c =>
    cases h
    exact .wait c hallowed.1 hallowed.2
  | signal c =>
    cases h
    exact .signal c hallowed.1 hallowed.2
  | broadcast c =>
    cases h
    exact .broadcast c hallowed.1 hallowed.2
  | go => exact cvGo_move hallowed h

omit [DecidableEq C] in
@[simp] theorem CvSys.goto_self (s : CvSys T C) (t : T) (p : Pc T C) : (s.goto t p).pc t = p :=
  Function.update_self ..

omit [DecidableEq C] in
theorem CvSys.goto_other (s : CvSys T C) (p : Pc T C) (h : t ≠ u) : (s.goto u p).pc t = s.pc t :=
  Function.update_of_ne h ..

omit [DecidableEq C] in
/-- A section of `lock_acquire` is the last one of its call if it takes the lock. -/
theorem CvSys.tried_idle {k : Option (CvCall T C)} {b : Bool} {lk : Lock T}
    (h : (s.tried t k b lk).pc t = .idle) : b = true := by
  cases b <;> simp [CvSys.tried] at h ⊢

theorem CvMove.lock (h : CvMove s t op s') : LockMove t s.lock s'.lock := by
  cases h with
  | acquire b lk hpc hlk => exact .acquire b hlk
  | release lk hpc hlk => exact .release hlk
  | giveUp k lk hpc hlk => exact .release hlk
  | reacquire k b lk hpc hlk => exact .acquire b hlk
  | again k b lk hpc hwoken hlk => exact .again b hlk
  | _ => exact .none rfl

theorem CvMove.other (h : CvMove s u op s') (ht : t ≠ u) : s'.pc t = s.pc t := by
  cases h with
  | release lk hpc hlk => rfl
  | _ => exact CvSys.goto_other _ _ ht

end

/-- The state after a step. -/
def cvNext (s : CvSys T C) (t : T) (op : CvOp C) : CvSys T C := (cvStep s t op).okD s

theorem cvNext_run {Init : CvSys T C → Prop} {tr : List (CvSys T C × (T × CvOp C))} {s : CvSys T C}
    (h : Run Init CvStep tr s) (t : T) (op : CvOp C) (ha : op.Allowed s t)
    (hok : (cvStep s t op).isOk = true) : Run Init CvStep ((s, (t, op)) :: tr) (cvNext s t op) :=
  Run.step h ⟨ha, Except.eq_ok_okD hok s⟩

end JinxOS
