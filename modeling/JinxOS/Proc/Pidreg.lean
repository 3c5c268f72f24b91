import JinxOS.Klib.Ts
import JinxOS.Lib.Pool

/-!
# The pid registrar

The code of `proc/pidreg.c`.  The pids in use are marked in `pmap`, those that were given back are
in `pid_reuse`, and `pcounter` is the first one that was never used.  Pids are `int`s that are never
negative, and are natural numbers here.

The bitmap and the queue have locks of their own, and so has the registrar.  Its lock is still held
when `pidreg_getpid` returns `EMPROC`, so that lock is not assumed to be free between calls.  What
the calls do to the pids does not depend on it: `pidregGetpid_eq` and `pidregReturnpid_eq` take the
two apart.  That the three places agree is a `Pool`.
-/

namespace JinxOS

/-! ## The code -/

/-- `NPID`, which is `NPROC`. -/
def npid : Nat := 1024

/-- `PID_MIN`. -/
def pidMin : Nat := 1

/-- `struct pid_registrar`. -/
structure PidRegistrar (T : Type) where
  lk : Lock T
  pmap : Ts T Bitmap
  pidReuse : Ts T (Queue Nat)
  pcounter : Nat

variable {T : Type} [DecidableEq T]

/-- `pidreg_create`. -/
def pidregCreate : Except Fault (PidRegistrar T) := do
  let pmap ← bitmapTsCreate npid
  match pmap with
  | none => .error (.panic "create pidreg->pmap failed")
  | some pmap => .ok ⟨lockCreate, pmap, queueTsCreate, pidMin⟩

/-- `pid_available`. -/
def pidAvailable (r : PidRegistrar T) (t : T) : Except Fault (Bool × PidRegistrar T) := do
  let lk ← lockTake r.lk t
  let (res, q) ← (if r.pcounter < npid then .ok (true, r.pidReuse) else do
    let (empty, q) ← queueTsIsempty r.pidReuse t
    .ok (!empty, q))
  let lk ← lockRelease lk t
  .ok (res, { r with lk := lk, pidReuse := q })

/-- The pid that `pidreg_getpid` hands out. -/
def choosePid (r : PidRegistrar T) (t : T) : Except Fault (Nat × PidRegistrar T) := do
  let (empty, q) ← queueTsIsempty r.pidReuse t
  if !empty then do
    let (pid, q) ← queueTsPop q t
    .ok (pid.getD 0, { r with pidReuse := q })
  else .ok (r.pcounter, { r with pidReuse := q, pcounter := r.pcounter + 1 })

/-- `pidreg_getpid`, on a registrar or the null pointer. -/
def pidregGetpid (kpidreg : Option (PidRegistrar T)) (t : T) :
    Except Fault (Nat × PidRegistrar T) := do
  let r ← (match kpidreg with
    | none => pidregCreate
    | some r => .ok r)
  let lk ← lockTake r.lk t
  let (available, r) ← pidAvailable { r with lk := lk } t
  if !available then .ok (emproc, r)
  else do
    let (pid, r) ← choosePid r t
    let (set, pmap) ← bitmapTsIsset r.pmap t pid
    assert "!bitmap_ts_isset(kpidreg->pmap, pid)" (!set)
    let pmap ← bitmapTsMark pmap t pid
    let lk ← lockRelease r.lk t
    .ok (pid, { r with lk := lk, pmap := pmap })

/-- `pid_used`. -/
def pidUsed (kpidreg : Option (PidRegistrar T)) (t : T) (pid : Nat) :
    Except Fault (Bool × PidRegistrar T) := do
  assert "kpidreg != NULL" kpidreg.isSome
  let r ← deref kpidreg
  assert "pid < NPID" (decide (pid < npid))
  let lk ← lockTake r.lk t
  let (res, pmap) ← (if pid < r.pcounter then bitmapTsIsset r.pmap t pid else .ok (false, r.pmap))
  let lk ← lockRelease lk t
  .ok (res, { r with lk := lk, pmap := pmap })

/-- `pidreg_returnpid`. -/
def pidregReturnpid (kpidreg : Option (PidRegistrar T)) (t : T) (pid : Nat) :
    Except Fault (PidRegistrar T) := do
  assert "kpidreg != NULL" kpidreg.isSome
  let (used, r) ← pidUsed kpidreg t pid
  assert "pid_used(pid)" used
  let lk ← lockTake r.lk t
  let (_, pmap) ← bitmapTsUnmark r.pmap t pid
  let q ← queueTsPush r.pidReuse t pid
  let lk ← lockRelease lk t
  .ok { r with lk := lk, pmap := pmap, pidReuse := q }

/-! ## What the calls do to the pids -/

namespace PidRegistrar

/-- The pid is marked. -/
def InUse (r : PidRegistrar T) (pid : Nat) : Prop := r.pmap.obj.has pid = true

/-- The pids in the queue. -/
def queued (r : PidRegistrar T) : List Nat := r.pidReuse.obj.vals.vals

/-- There is a pid to hand out. -/
def Available (r : PidRegistrar T) : Prop := r.pcounter < npid ∨ r.queued ≠ []

end PidRegistrar

/-- The registrar with these pids, when no thread is using the bitmap or the queue. -/
def pidReg (lk : Lock T) (b : Bitmap) (vs : List Nat) (c : Nat) : PidRegistrar T :=
  ⟨lk, .free b, .free (.of vs), c⟩

/-- The invariant, but for the locks. -/
structure PidPool (b : Bitmap) (vs : List Nat) (c : Nat) : Prop where
  wf : b.Wf
  bits : b.bits = npid
  pool : Pool (fun p => b.has p = true) vs pidMin c
  le : c ≤ npid

/-- The pid that is handed out, and what is left. -/
def nextPid (vs : List Nat) (c : Nat) : Nat × List Nat × Nat :=
  match vs with
  | [] => (c, [], c + 1)
  | p :: vs => (p, vs, c)

section
variable {b : Bitmap} {vs : List Nat} {c p : Nat} {t : T} {lk : Lock T}

section
variable (h : PidPool b vs c)
include h

theorem PidPool.length_lt : vs.length + 1 < 2 ^ 32 := by
  have hlen := h.pool.length_le
  have hle := h.le
  rw [npid] at hle
  omega

theorem PidPool.lt_npid (hp : b.has p = true) : p < npid :=
  lt_of_lt_of_le (h.pool.used_mem p hp).2 h.le

theorem PidPool.has_iff_mark (hp : p < npid) (q : Nat) :
    (b.mark p).has q = true ↔ b.has q = true ∨ q = p := by
  rw [Bitmap.has_mark (h.wf.lt (h.bits ▸ hp)), Bool.or_eq_true, decide_eq_true_iff,
    eq_comm (a := p)]

theorem PidPool.nextPid (ha : c < npid ∨ vs ≠ []) :
    pidMin ≤ (nextPid vs c).1 ∧ (nextPid vs c).1 < npid ∧ b.has (nextPid vs c).1 = false ∧
      PidPool (b.mark (nextPid vs c).1) (nextPid vs c).2.1 (nextPid vs c).2.2 := by
  cases vs with
  | nil =>
    have hc : c < npid := ha.resolve_right fun hne => hne rfl
    have hclear : ¬ b.has c = true := fun hset => Nat.lt_irrefl c (h.pool.used_mem c hset).2
    exact ⟨h.pool.le, hc, Bool.not_eq_true _ ▸ hclear, h.wf.mark (h.bits ▸ hc), h.bits,
      h.pool.fresh (h.has_iff_mark hc), hc⟩
  | cons p vs =>
    obtain ⟨hlo, hlt⟩ := h.pool.free_mem p List.mem_cons_self
    have hp : p < npid := lt_of_lt_of_le hlt h.le
    have hclear := h.pool.disjoint p List.mem_cons_self
    exact ⟨hlo, hp, Bool.not_eq_true _ ▸ hclear, h.wf.mark (h.bits ▸ hp), h.bits,
      h.pool.reuse (h.has_iff_mark hp), h.le⟩

theorem PidPool.has_iff_unmark (hp : b.has p = true) (q : Nat) :
    (b.unmark p).has q = true ↔ b.has q = true ∧ q ≠ p := by
  rw [Bitmap.has_unmark (h.wf.lt (h.bits ▸ h.lt_npid hp)), Bool.and_eq_true, Bool.not_eq_true',
    decide_eq_false_iff_not, eq_comm (a := p)]

theorem PidPool.giveBack (hp : b.has p = true) : PidPool (b.unmark p) (vs ++ [p]) c :=
  ⟨h.wf.unmark (h.bits ▸ h.lt_npid hp), h.bits, h.pool.giveBack hp (h.has_iff_unmark hp), h.le⟩

end

omit [DecidableEq T] in
theorem pidregCreate_ok : ∃ b, pidregCreate = .ok (pidReg (lockCreate : Lock T) b [] pidMin) ∧
    PidPool b [] pidMin := by
  obtain ⟨b, hb, hwf, hbits, hclear⟩ := bitmapCreate_ok (show 0 < npid by decide) (by decide)
  refine ⟨b, ?_, hwf, hbits, .empty pidMin fun p hp => ?_, by decide⟩
  · rw [pidregCreate, bitmapTsCreate, hb]
    rfl
  · by_cases hlt : p < npid
    · rw [hclear p hlt] at hp
      exact nomatch hp
    · have hlen := hwf.length
      rw [Bitmap.has_of_length_le (by rw [npid] at *; omega)] at hp
      exact nomatch hp

theorem pidAvailable_eq (lk : Lock T) (b : Bitmap) (vs : List Nat) (c : Nat) (t : T) :
    pidAvailable (pidReg lk b vs c) t = lockTake lk t >>= fun lk => lockRelease lk t >>= fun lk =>
      .ok (decide (c < npid ∨ vs ≠ []), pidReg lk b vs c) := by
  rw [pidAvailable, pidReg]
  congr 1
  funext lk
  by_cases hc : c < npid
  · rw [if_pos hc, ok_bind, decide_eq_true (.inl hc)]
    rfl
  · rw [if_neg hc, queueTsIsempty_free]
    cases vs with
    | nil =>
      rw [decide_eq_false (by simp [hc])]
      rfl
    | cons p vs =>
      rw [decide_eq_true (by simp)]
      rfl

theorem choosePid_eq (hlen : vs.length + 1 < 2 ^ 32) (lk : Lock T) (b : Bitmap) (c : Nat) (t : T) :
    choosePid (pidReg lk b vs c) t =
      .ok ((nextPid vs c).1, pidReg lk b (nextPid vs c).2.1 (nextPid vs c).2.2) := by
  rw [choosePid, pidReg]
  rw [queueTsIsempty_free, ok_bind]
  cases vs with
  | nil => rfl
  | cons p vs =>
    dsimp only
    rw [if_pos (by rfl), queueTsPop_free (by omega)]
    rfl

/-- **`pidreg_getpid` marks the next pid**; the rest is about the lock. -/
theorem pidregGetpid_eq (h : PidPool b vs c) (lk : Lock T) (t : T) :
    pidregGetpid (some (pidReg lk b vs c)) t =
      lockTake lk t >>= fun lk => lockTake lk t >>= fun lk => lockRelease lk t >>= fun lk =>
        if c < npid ∨ vs ≠ [] then lockRelease lk t >>= fun lk =>
          .ok ((nextPid vs c).1,
            pidReg lk (b.mark (nextPid vs c).1) (nextPid vs c).2.1 (nextPid vs c).2.2)
        else .ok (emproc, pidReg lk b vs c) := by
  rw [pidregGetpid]
  rw [ok_bind]
  congr 1
  funext lk
  change pidAvailable (pidReg lk b vs c) t >>= _ = _
  rw [pidAvailable_eq, bind_assoc]
  congr 1
  funext lk
  rw [bind_assoc]
  congr 1
  funext lk
  rw [ok_bind]
  dsimp only
  by_cases ha : c < npid ∨ vs ≠ []
  · obtain ⟨-, hlt, hclear, -⟩ := h.nextPid ha
    have hbits : (nextPid vs c).1 < b.bits := h.bits ▸ hlt
    rw [if_pos ha, decide_eq_true ha, if_neg (by simp), choosePid_eq h.length_lt, ok_bind]
    dsimp only [pidReg]
    rw [bitmapTsIsset_free hbits, ok_bind]
    rw [hclear, Bool.not_false, assert_true, ok_bind, bitmapTsMark_free hbits hclear, ok_bind]
  · rw [if_neg ha, decide_eq_false ha, if_pos (by rfl)]

theorem pidUsed_eq (h : PidPool b vs c) (hp : b.has p = true) (lk : Lock T) (t : T) :
    pidUsed (some (pidReg lk b vs c)) t p =
      lockTake lk t >>= fun lk => lockRelease lk t >>= fun lk => .ok (true, pidReg lk b vs c) := by
  have hlt : p < npid := h.lt_npid hp
  rw [pidUsed, Option.isSome_some, assert_true, ok_bind, deref_some, ok_bind,
    decide_eq_true hlt, assert_true, ok_bind, pidReg]
  congr 1
  funext lk
  rw [if_pos (h.pool.used_mem p hp).2, bitmapTsIsset_free (h.bits ▸ hlt), ok_bind, hp]
  rfl

/-- **`pidreg_returnpid` queues the pid**; the rest is about the lock. -/
theorem pidregReturnpid_eq (h : PidPool b vs c) (hp : b.has p = true) (lk : Lock T) (t : T) :
    pidregReturnpid (some (pidReg lk b vs c)) t p =
      lockTake lk t >>= fun lk => lockRelease lk t >>= fun lk => lockTake lk t >>= fun lk =>
        lockRelease lk t >>= fun lk => .ok (pidReg lk (b.unmark p) (vs ++ [p]) c) := by
  have hbits : p < b.bits := h.bits ▸ h.lt_npid hp
  rw [pidregReturnpid, Option.isSome_some, assert_true, ok_bind, pidUsed_eq h hp, bind_assoc]
  congr 1
  funext lk
  rw [bind_assoc]
  congr 1
  funext lk
  rw [ok_bind]
  dsimp only [pidReg]
  rw [assert_true, ok_bind]
  congr 1
  funext lk
  rw [bitmapTsUnmark_free hbits hp, ok_bind]
  rw [queueTsPush_free h.length_lt, ok_bind]

section
variable {α : Type} (hc : lk.count = 0) (ho : lk.owner = none) (f : Lock T → Except Fault α)
include hc ho f

theorem lock_twice :
    (lockTake lk t >>= fun lk => lockTake lk t >>= fun lk => lockRelease lk t >>= f) =
      f ⟨some t, 1, lk.wchan⟩ := by
  rw [lockTake_open hc ho, ok_bind, lockTake_owner rfl, ok_bind]
  change lockRelease ⟨some t, 2, lk.wchan⟩ t >>= f = _
  rw [lockRelease_two, ok_bind]

theorem lock_once :
    (lockTake lk t >>= fun lk => lockRelease lk t >>= f) = f ⟨none, 0, lk.wchan.wakeOne⟩ := by
  rw [lockTake_open hc ho, ok_bind, lockRelease_one rfl rfl, ok_bind]

end

end

/-! ## Runs -/

/-- A call. -/
inductive PidCall (T : Type)
  /-- `pidreg_getpid()`. -/
  | getpid (t : T)
  /-- `pidreg_returnpid(pid)`. -/
  | returnpid (t : T) (pid : Nat)

/-- A call that returns.  Pids are given back when they are in use. -/
def PidStep (r : PidRegistrar T) : PidCall T → PidRegistrar T → Prop
  | .getpid t, r' => ∃ pid, pidregGetpid (some r) t = .ok (pid, r')
  | .returnpid t pid, r' => r.InUse pid ∧ pidregReturnpid (some r) t pid = .ok r'

/-- A run on a new registrar. -/
def PidRun (tr : List (PidRegistrar T × PidCall T)) (r : PidRegistrar T) : Prop :=
  Run (fun r => pidregCreate = .ok r) PidStep tr r

/-- The invariant. -/
def PidInv (r : PidRegistrar T) : Prop := ∃ lk b vs c, r = pidReg lk b vs c ∧ PidPool b vs c

section
variable {r r' : PidRegistrar T} {t : T} {pid : Nat}

theorem PidInv.getpid (h : PidInv r) (hrun : pidregGetpid (some r) t = .ok (pid, r')) : PidInv r' ∧
      (r.Available → pidMin ≤ pid ∧ pid < npid ∧ ¬ r.InUse pid ∧
        ∀ q, r'.InUse q ↔ r.InUse q ∨ q = pid) ∧
      (¬ r.Available → pid = emproc ∧ ∀ q, r'.InUse q ↔ r.InUse q) := by
  obtain ⟨lk, b, vs, c, rfl, hp⟩ := h
  rw [pidregGetpid_eq hp] at hrun
  obtain ⟨lk1, -, hrun⟩ := of_bind hrun
  obtain ⟨lk2, -, hrun⟩ := of_bind hrun
  obtain ⟨lk3, -, hrun⟩ := of_bind hrun
  split at hrun
  · rename_i ha
    obtain ⟨lk4, -, hrun⟩ := of_bind hrun
    cases hrun
    obtain ⟨hlo, hlt, hclear, hp'⟩ := hp.nextPid ha
    refine ⟨⟨_, _, _, _, rfl, hp'⟩, fun _ => ⟨hlo, hlt, ?_, hp.has_iff_mark hlt⟩,
      fun hn => absurd ha hn⟩
    exact fun hset => Bool.false_ne_true (hclear.symm.trans hset)
  · rename_i hn
    cases hrun
    exact ⟨⟨_, _, _, _, rfl, hp⟩, fun ha => absurd ha hn, fun _ => ⟨rfl, fun q => Iff.rfl⟩⟩

theorem PidInv.returnpid (h : PidInv r) (hused : r.InUse pid)
    (hrun : pidregReturnpid (some r) t pid = .ok r') :
    PidInv r' ∧ ∀ q, r'.InUse q ↔ r.InUse q ∧ q ≠ pid := by
  obtain ⟨lk, b, vs, c, rfl, hp⟩ := h
  rw [pidregReturnpid_eq hp hused] at hrun
  obtain ⟨lk1, -, hrun⟩ := of_bind hrun
  obtain ⟨lk2, -, hrun⟩ := of_bind hrun
  obtain ⟨lk3, -, hrun⟩ := of_bind hrun
  obtain ⟨lk4, -, hrun⟩ := of_bind hrun
  cases hrun
  exact ⟨⟨_, _, _, _, rfl, hp.giveBack hused⟩, hp.has_iff_unmark hused⟩

/-- The assertion in `pidreg_getpid` does not fail: only the code of the lock can. -/
theorem PidInv.getpid_fault (h : PidInv r) {e : Fault} (he : e ∉ lockFaults) :
    pidregGetpid (some r) t ≠ .error e := by
  obtain ⟨lk, b, vs, c, rfl, hp⟩ := h
  rw [pidregGetpid_eq hp]
  refine Except.bind_ne_error (fun h => he (lockTake_fault h)) fun lk _ => ?_
  refine Except.bind_ne_error (fun h => he (lockTake_fault h)) fun lk _ => ?_
  refine Except.bind_ne_error (fun h => he (lockRelease_fault h)) fun lk _ => ?_
  split
  · exact Except.bind_ne_error (fun h => he (lockRelease_fault h)) fun lk _ => nofun
  · exact nofun

theorem PidInv.getpid_returns (h : PidInv r) (hc : r.lk.count = 0) (ho : r.lk.owner = none)
    (t : T) : ∃ pid r', pidregGetpid (some r) t = .ok (pid, r') := by
  obtain ⟨lk, b, vs, c, rfl, hp⟩ := h
  change lk.count = 0 at hc
  rw [pidregGetpid_eq hp, lock_twice hc ho]
  split
  · rw [lockRelease_one rfl rfl]
    exact ⟨_, _, rfl⟩
  · exact ⟨_, _, rfl⟩

theorem PidInv.returnpid_returns (h : PidInv r) (hc : r.lk.count = 0) (ho : r.lk.owner = none)
    (t : T) (hused : r.InUse pid) : ∃ r', pidregReturnpid (some r) t pid = .ok r' := by
  obtain ⟨lk, b, vs, c, rfl, hp⟩ := h
  change lk.count = 0 at hc
  rw [pidregReturnpid_eq hp hused, lock_once hc ho, lock_once rfl rfl]
  exact ⟨_, rfl⟩

theorem PidRun.inv {tr : List (PidRegistrar T × PidCall T)} (hrun : PidRun tr r) : PidInv r := by
  refine Run.invariant (fun r hinit => ?_) (fun r a r' hi hstep => ?_) hrun
  · obtain ⟨b, hb, hp⟩ := pidregCreate_ok
    exact ⟨_, b, [], pidMin, Except.ok.inj (hinit.symm.trans hb), hp⟩
  · cases a with
    | getpid t =>
      obtain ⟨pid, hstep⟩ := hstep
      exact (hi.getpid hstep).1
    | returnpid t pid => exact (hi.returnpid hstep.1 hstep.2).1

end

/-- What is known of a registrar after a run. -/
structure PidSpec (r : PidRegistrar T) : Prop where
  /-- A pid that has been handed out is marked, or queued once, and not both. -/
  partition : ∀ p, pidMin ≤ p → p < r.pcounter →
    r.InUse p ∧ r.queued.count p = 0 ∨ ¬ r.InUse p ∧ r.queued.count p = 1
  /-- No other pid is marked or queued. -/
  beyond : ∀ p, r.pcounter ≤ p → ¬ r.InUse p ∧ p ∉ r.queued
  /-- `pcounter` is in bounds. -/
  bound : r.pcounter ≤ npid
  /-- A pid that is handed out is not in use, and is marked. -/
  fresh : r.Available → ∀ t pid r', pidregGetpid (some r) t = .ok (pid, r') →
    pidMin ≤ pid ∧ pid < npid ∧ ¬ r.InUse pid ∧ ∀ q, r'.InUse q ↔ r.InUse q ∨ q = pid
  /-- If there is none, nothing is marked. -/
  exhausted : ¬ r.Available → ∀ t pid r', pidregGetpid (some r) t = .ok (pid, r') →
    pid = emproc ∧ ∀ q, r'.InUse q ↔ r.InUse q
  /-- The assertion in `pidreg_getpid` does not fail. -/
  no_assert : ∀ t, pidregGetpid (some r) t ≠
    .error (.assertFailed "!bitmap_ts_isset(kpidreg->pmap, pid)")
  /-- When the lock is free, the calls return. -/
  returns : r.lk.count = 0 → r.lk.owner = none → ∀ t,
    (∃ pid r', pidregGetpid (some r) t = .ok (pid, r')) ∧
    ∀ pid, r.InUse pid → ∃ r', pidregReturnpid (some r) t pid = .ok r'

/-- **The bitmap, the queue and the counter agree in every run.** -/
theorem pidRun_partition {tr : List (PidRegistrar T × PidCall T)} {r : PidRegistrar T}
    (hrun : PidRun tr r) : PidSpec r := by
  have hi := hrun.inv
  obtain ⟨lk, b, vs, c, rfl, hp⟩ := hrun.inv
  refine ⟨fun p hlo hlt => hp.pool.count hlo hlt, fun p hle => ?_, hp.le, fun ha t pid r' h => ?_,
    fun hn t pid r' h => ?_, fun t => hi.getpid_fault (by decide), fun hc ho t => ?_⟩
  · exact ⟨fun hset => Nat.not_lt.2 hle (hp.pool.used_mem p hset).2,
      fun hmem => Nat.not_lt.2 hle (hp.pool.free_mem p hmem).2⟩
  · exact (hi.getpid h).2.1 ha
  · exact (hi.getpid h).2.2 hn
  · exact ⟨hi.getpid_returns hc ho t, fun pid hused => hi.returnpid_returns hc ho t hused⟩

theorem pidRun_take (t : T) (n : Nat) (hn : pidMin + n ≤ npid) :
    ∃ (tr : List (PidRegistrar T × PidCall T)) (lk : Lock T) (b : Bitmap),
      PidRun tr (pidReg lk b [] (pidMin + n)) ∧ tr.length = n ∧ PidPool b [] (pidMin + n) ∧
        lk.count = 0 ∧ lk.owner = none := by
  induction n with
  | zero =>
    obtain ⟨b, hcreate, hp⟩ := pidregCreate_ok
    exact ⟨[], lockCreate, b, .init hcreate, rfl, hp, rfl, rfl⟩
  | succ n ih =>
    obtain ⟨tr, lk, b, hrun, hlen, hp, hc, ho⟩ := ih (by omega)
    have ha : pidMin + n < npid ∨ ([] : List Nat) ≠ [] := .inl (by omega)
    have hget := pidregGetpid_eq hp lk t
    rw [lock_twice hc ho, if_pos ha, lockRelease_one rfl rfl] at hget
    obtain ⟨-, -, -, hp'⟩ := hp.nextPid ha
    exact ⟨_, _, _, Run.step (a := PidCall.getpid t) hrun ⟨_, hget⟩, by simp [hlen], hp', rfl, rfl⟩

/-- Two pids are taken and the first is given back; it is the next to be handed out. -/
theorem exists_reuse_run :
    ∃ (tr : List (PidRegistrar Unit × PidCall Unit)) (r r' : PidRegistrar Unit), PidRun tr r ∧
      tr.length = 3 ∧ r.queued = [1] ∧ pidregGetpid (some r) () = .ok (1, r') := by
  obtain ⟨tr, lk, b, hrun, hlen, hp, hc, ho⟩ := pidRun_take () 2 (by decide)
  have hused : b.has 1 = true := by
    rcases hp.pool.count (show pidMin ≤ 1 by decide) (by decide) with h | h
    · exact h.1
    · exact nomatch h.2
  have hback := pidregReturnpid_eq hp hused lk ()
  rw [lock_once hc ho, lock_once rfl rfl] at hback
  have hget := pidregGetpid_eq (hp.giveBack hused) ⟨none, 0, lk.wchan.wakeOne.wakeOne⟩ ()
  rw [lock_twice rfl rfl, if_pos (.inr (by simp)), lockRelease_one rfl rfl] at hget
  exact ⟨_, _, _, Run.step (a := PidCall.returnpid () 1) hrun ⟨hused, hback⟩, by simp [hlen], rfl,
    hget⟩

/-- The pid 1 is handed out again. -/
theorem pidRun_partition_reused :
    ∃ (tr : List (PidRegistrar Unit × PidCall Unit)) (r r' : PidRegistrar Unit),
    PidRun tr r ∧ tr.length = 3 ∧ pidregGetpid (some r) () = .ok (1, r') ∧ ¬ r.InUse 1 ∧
      r'.InUse 1 := by
  obtain ⟨tr, r, r', hrun, hlen, hqueued, hget⟩ := exists_reuse_run
  obtain ⟨-, -, hclear, hmark⟩ :=
    (pidRun_partition hrun).fresh (.inr (by simp [hqueued])) () 1 r' hget
  exact ⟨tr, r, r', hrun, hlen, hget, hclear, (hmark 1).2 (.inr rfl)⟩

end JinxOS
