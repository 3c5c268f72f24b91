import JinxOS.Klib.Bitmap
import JinxOS.Klib.Queue
import JinxOS.Synch.Lock

/-!
# Objects with a lock, called one after the other

`klib/bitmap_ts.c` and `klib/queue_ts.c` wrap the functions of a bitmap and of a queue in
`lock_acquire` and `lock_release`, and those that add something call `cv_signal` before the release.
`locked` and `lockedSignal` are these two wrappers.

Here calls are made one after the other, by any thread.  A `lock_acquire` that has to wait then
never returns: no other thread is running a call that could release the lock, and `thread_switch`
ends in `cpu_idle`.
-/

namespace JinxOS

/-- `struct bitmap_ts`, `struct queue_ts`: an object, a lock and a condition variable. -/
structure Ts (T α : Type) where
  /-- `bm`, `qu`. -/
  obj : α
  lk : Lock T
  /-- The wait channel of `cv`. -/
  cv : WaitQueue T

variable {T α β : Type} [DecidableEq T]

/-! ## The code -/

/-- `lock_acquire`, when no other thread runs. -/
def lockTake (lk : Lock T) (t : T) : Except Fault (Lock T) := do
  let (b, lk) ← lockAcquire lk t
  if b then .ok lk else .error (.panic "cpu_idle on cpunum %u")

/-- A call under the lock. -/
def locked (s : Ts T α) (t : T) (f : α → Except Fault (β × α)) : Except Fault (β × Ts T α) := do
  let lk ← lockTake s.lk t
  let (ret, obj) ← f s.obj
  let lk ← lockRelease lk t
  .ok (ret, { s with obj := obj, lk := lk })

/-- A call under the lock, followed by `cv_signal`, which releases the lock and takes it again. -/
def lockedSignal (s : Ts T α) (t : T) (f : α → Except Fault α) : Except Fault (Ts T α) := do
  let lk ← lockTake s.lk t
  let obj ← f s.obj
  let lk ← lockRelease lk t
  let lk ← lockTake lk t
  let lk ← lockRelease lk t
  .ok ⟨obj, lk, s.cv.wakeOne⟩

/-- `bitmap_ts_create`. -/
def bitmapTsCreate (nbits : Nat) : Except Fault (Option (Ts T Bitmap)) := do
  let bm ← bitmapCreate nbits
  .ok (bm.map fun b => ⟨b, lockCreate, .empty⟩)

/-- `bitmap_ts_mark`. -/
def bitmapTsMark (b : Ts T Bitmap) (t : T) (index : Nat) : Except Fault (Ts T Bitmap) :=
  lockedSignal b t fun bm => bitmapMark bm index

/-- `bitmap_ts_unmark`. -/
def bitmapTsUnmark (b : Ts T Bitmap) (t : T) (index : Nat) : Except Fault (Unit × Ts T Bitmap) :=
  locked b t fun bm => do
    let bm ← bitmapUnmark bm index
    .ok ((), bm)

/-- `bitmap_ts_isset`. -/
def bitmapTsIsset (b : Ts T Bitmap) (t : T) (index : Nat) : Except Fault (Bool × Ts T Bitmap) :=
  locked b t fun bm => do
    let ret ← bitmapIsset bm index
    .ok (ret, bm)

/-- `queue_ts_create`. -/
def queueTsCreate : Ts T (Queue α) := ⟨queueCreate, lockCreate, .empty⟩

/-- `queue_ts_push`. -/
def queueTsPush (q : Ts T (Queue α)) (t : T) (newval : α) : Except Fault (Ts T (Queue α)) :=
  lockedSignal q t fun qu => queuePush qu newval

/-- `queue_ts_pop`; the null pointer of an empty queue is `none`. -/
def queueTsPop (q : Ts T (Queue α)) (t : T) : Except Fault (Option α × Ts T (Queue α)) :=
  locked q t fun qu => do
    let empty ← queueIsempty qu
    if empty then .ok (none, qu)
    else do
      let ret ← queueFront qu
      let qu ← queuePop qu
      .ok (ret, qu)

/-- `queue_ts_isempty`. -/
def queueTsIsempty (q : Ts T (Queue α)) (t : T) : Except Fault (Bool × Ts T (Queue α)) :=
  locked q t fun qu => do
    let ret ← queueIsempty qu
    .ok (ret, qu)

/-! ## Between calls -/

/-- An object that no thread is using. -/
def Ts.free (obj : α) : Ts T α := ⟨obj, lockCreate, .empty⟩

section
variable {t : T} {lk : Lock T}

theorem lockTake_open (hc : lk.count = 0) (ho : lk.owner = none) :
    lockTake lk t = .ok { lk with owner := some t, count := 1 } := by
  rw [lockTake, lockAcquire_other (by simp [ho]), lockAcquireTry_free hc ho]
  rfl

theorem lockTake_owner (ho : lk.owner = some t) :
    lockTake lk t = .ok { lk with count := toInt (lk.count + 1) } := by
  rw [lockTake, lockAcquire_owner ho]
  rfl

/-- How `lock_acquire` and `lock_release` can fail. -/
def lockFaults : List Fault :=
  [.assertFailed "lock->lk_count == 0", .assertFailed "lock->lk_owner == NULL",
    .assertFailed "lock_holding(lock)", .assertFailed "lock->lk_count > 0",
    .panic "cpu_idle on cpunum %u"]

theorem lockAcquireDone_fault {e : Fault} (h : lockAcquireDone lk t = .error e) :
    e ∈ lockFaults := by
  rcases Except.bind_eq_error.1 h with h | ⟨_, _, h⟩
  · rw [assert_error h]
    decide
  · exact nomatch h

theorem lockAcquireTry_fault {e : Fault} (h : lockAcquireTry lk t = .error e) : e ∈ lockFaults := by
  rw [lockAcquireTry] at h
  split at h
  · cases h
  · rcases Except.bind_eq_error.1 h with h | ⟨_, _, h⟩
    · rw [assert_error h]
      decide
    · rcases Except.bind_eq_error.1 h with h | ⟨_, _, h⟩
      · rw [assert_error h]
        decide
      · exact lockAcquireDone_fault h

theorem lockTake_fault {e : Fault} (h : lockTake lk t = .error e) : e ∈ lockFaults := by
  rcases Except.bind_eq_error.1 h with h | ⟨⟨b, lk'⟩, _, h⟩
  · rw [lockAcquire] at h
    split at h
    · exact lockAcquireTry_fault h
    · exact lockAcquireDone_fault h
  · cases b with
    | true => cases h
    | false =>
      rw [← Except.error.inj h]
      decide

theorem lockRelease_fault {e : Fault} (h : lockRelease lk t = .error e) : e ∈ lockFaults := by
  rcases Except.bind_eq_error.1 h with h | ⟨_, _, h⟩
  · rw [assert_error h]
    decide
  · rcases Except.bind_eq_error.1 h with h | ⟨_, _, h⟩
    · rw [assert_error h]
      decide
    · dsimp only at h
      split at h <;> exact nomatch h

theorem lockRelease_two (q : WaitQueue T) : lockRelease ⟨some t, 2, q⟩ t = .ok ⟨some t, 1, q⟩ := by
  rw [lockRelease, lockHolding_iff.2 rfl, assert_true, ok_bind]
  rfl

theorem lockTake_create : lockTake (lockCreate : Lock T) t = .ok ⟨some t, 1, .empty⟩ :=
  lockTake_open rfl rfl

theorem lockRelease_create : lockRelease (⟨some t, 1, .empty⟩ : Lock T) t = .ok lockCreate :=
  lockRelease_one rfl rfl

/-- A call on an object that no thread is using does what it does without the lock. -/
theorem locked_free (t : T) (obj : α) (f : α → Except Fault (β × α)) :
    locked (.free obj) t f = f obj >>= fun r => .ok (r.1, .free r.2) := by
  rw [locked, Ts.free, lockTake_create, ok_bind]
  cases f obj with
  | error e => rfl
  | ok r =>
    rw [lockRelease_create]
    rfl

theorem lockedSignal_free (t : T) (obj : α) (f : α → Except Fault α) :
    lockedSignal (.free obj) t f = f obj >>= fun obj => .ok (.free obj) := by
  rw [lockedSignal, Ts.free, lockTake_create, ok_bind]
  cases f obj with
  | error e => rfl
  | ok obj =>
    rw [ok_bind, ok_bind, lockRelease_create, ok_bind, lockTake_create, ok_bind,
      lockRelease_create]
    rfl

variable {b : Bitmap} {k : Nat} {vs : List α} {x : α}

theorem bitmapTsIsset_free (hk : k < b.bits) :
    bitmapTsIsset (.free b) t k = .ok (b.has k, .free b) := by
  rw [bitmapTsIsset, locked_free, bitmapIsset_ok hk]
  rfl

theorem bitmapTsMark_free (hk : k < b.bits) (hclear : b.has k = false) :
    bitmapTsMark (.free b) t k = .ok (.free (b.mark k)) := by
  rw [bitmapTsMark, lockedSignal_free, bitmapMark_ok hk hclear]
  rfl

theorem bitmapTsUnmark_free (hk : k < b.bits) (hset : b.has k = true) :
    bitmapTsUnmark (.free b) t k = .ok ((), .free (b.unmark k)) := by
  rw [bitmapTsUnmark, locked_free, bitmapUnmark_ok hk hset]
  rfl

theorem queueTsPush_free (h : vs.length + 1 < 2 ^ 32) (x : α) :
    queueTsPush (.free (.of vs)) t x = .ok (.free (.of (vs ++ [x]))) := by
  rw [queueTsPush, lockedSignal_free, queuePush_of h]
  rfl

theorem queueTsPop_free (h : (x :: vs).length < 2 ^ 32) :
    queueTsPop (.free (.of (x :: vs))) t = .ok (some x, .free (.of vs)) := by
  rw [queueTsPop, locked_free, queueIsempty_of, ok_bind, if_neg (by simp), queueFront_of,
    ok_bind, queuePop_of h]
  rfl

theorem queueTsIsempty_free (vs : List α) :
    queueTsIsempty (.free (.of vs)) t = .ok (vs.isEmpty, .free (.of vs)) := by
  rw [queueTsIsempty, locked_free, queueIsempty_of]
  rfl

end

end JinxOS
