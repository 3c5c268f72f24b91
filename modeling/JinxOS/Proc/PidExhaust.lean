import JinxOS.Proc.PidLeak

/-!
# When there are no pids left

`pidreg_getpid` takes the lock of the registrar, asks `pid_available`, which takes it again, and
releases it at the end.  If there is no pid it returns `EMPROC` from the middle, with the lock
held.  And `EMPROC` is 6, which is a pid like any other: the caller cannot tell.

So what one expects of a call (`CleanReport`) is true exactly if there is a pid to hand out.  As
long as that was so in all calls the lock is free in between, and the next call returns; the thread
that finds no pid is then the owner of the lock, and all others wait for it.
-/

namespace JinxOS

variable {T : Type} [DecidableEq T]

/-! ## The lock -/

/-- The lock between calls: free, or held at some depth. -/
structure LockAtRest (lk : Lock T) : Prop where
  lt : lk.count < 2 ^ 31
  nonneg : 0 ≤ lk.count
  owner : lk.owner = none ↔ lk.count = 0

section
variable {lk lk₁ lk₂ : Lock T} {t : T}

theorem lockTake_ok (h : lockTake lk t = .ok lk₁) :
    lk.owner = some t ∧ lk₁ = { lk with count := toInt (lk.count + 1) } ∨
      lk.owner = none ∧ lk.count = 0 ∧ lk₁ = { lk with owner := some t, count := 1 } := by
  by_cases ho : lk.owner = some t
  · rw [lockTake_owner ho] at h
    exact .inl ⟨ho, (Except.ok.inj h).symm⟩
  · obtain ⟨⟨b, lk'⟩, htry, h⟩ := of_bind h
    rw [lockAcquire_other ho] at htry
    rcases lockAcquireTry_ok htry with ⟨rfl, -⟩ | ⟨rfl, hzero, hnone, rfl⟩
    · cases h
    · exact .inr ⟨hnone, hzero, (Except.ok.inj h).symm⟩

omit [DecidableEq T] in
theorem toInt_succ_of_pos {c : Int} (hlo : -2 ^ 31 ≤ c) (hlt : c < 2 ^ 31)
    (hpos : 0 < toInt (c + 1)) : toInt (c + 1) = c + 1 ∧ c + 1 < 2 ^ 31 := by
  by_cases hmax : c + 1 = 2 ^ 31
  · rw [hmax] at hpos
    exact absurd hpos (by decide)
  · exact ⟨toInt_eq, by omega⟩

theorem lock_inner (hlo : -2 ^ 31 ≤ lk.count) (hlt : lk.count < 2 ^ 31) (hne : lk.count ≠ 0)
    (ho : lk.owner = some t) (htake : lockTake lk t = .ok lk₁)
    (hrel : lockRelease lk₁ t = .ok lk₂) : lk₂ = lk ∧ 0 < lk.count := by
  rw [lockTake_owner ho] at htake
  cases htake
  obtain ⟨-, hpos, hcount⟩ := lockRelease_ok hrel
  dsimp only at hpos hcount
  obtain ⟨hadd, -⟩ := toInt_succ_of_pos hlo hlt hpos
  rw [hadd, Int.add_sub_cancel, toInt_eq hlo hlt] at hcount
  rcases hcount with ⟨hzero, -⟩ | ⟨-, rfl⟩
  · exact absurd hzero hne
  · exact ⟨rfl, by omega⟩

theorem LockAtRest.take (h : LockAtRest lk) (htake : lockTake lk t = .ok lk₁) :
    lk₁.owner = some t ∧ lk₁.count = toInt (lk.count + 1) ∧ lk₁.count ≠ 0 ∧
      (lk.owner = some t ∨ lk.count = 0) := by
  have hlt := h.lt
  have hnonneg := h.nonneg
  have hne : toInt (lk.count + 1) ≠ 0 := by
    by_cases hmax : lk.count + 1 = 2 ^ 31
    · rw [hmax]
      decide
    · rw [toInt_eq]
      omega
  rcases lockTake_ok htake with ⟨ho, rfl⟩ | ⟨-, hzero, rfl⟩
  · exact ⟨ho, rfl, hne, .inl ho⟩
  · rw [hzero]
    exact ⟨rfl, rfl, Int.one_ne_zero, .inr rfl⟩

theorem LockAtRest.release (h : LockAtRest lk) (htake : lockTake lk t = .ok lk₁)
    (hrel : lockRelease lk₁ t = .ok lk₂) : lk₂.owner = lk.owner ∧ lk₂.count = lk.count := by
  have hlt := h.lt
  have hnonneg := h.nonneg
  obtain ⟨howner, hcount, -, hwas⟩ := h.take htake
  obtain ⟨-, hpos, hdone⟩ := lockRelease_ok hrel
  rw [hcount] at hpos
  obtain ⟨hadd, -⟩ := toInt_succ_of_pos (by omega) hlt hpos
  rw [hcount, hadd, Int.add_sub_cancel, toInt_eq (by omega) hlt] at hdone
  rcases hdone with ⟨hzero, rfl⟩ | ⟨hne, rfl⟩
  · exact ⟨(h.owner.2 hzero).symm, hzero.symm⟩
  · exact ⟨howner.trans (hwas.resolve_right hne).symm, rfl⟩

omit [DecidableEq T] in
theorem LockAtRest.congr (h : LockAtRest lk) (ho : lk₁.owner = lk.owner)
    (hc : lk₁.count = lk.count) : LockAtRest lk₁ :=
  ⟨hc ▸ h.lt, hc ▸ h.nonneg, by rw [ho, hc, h.owner]⟩

end

/-! ## One call -/

/-- What one expects of a call of `pidreg_getpid`: the lock is as it was, and the result is not a
pid exactly if all pids are in use. -/
def CleanReport (r : PidRegistrar T) (pid : Nat) (r' : PidRegistrar T) : Prop :=
  (r'.lk.owner = r.lk.owner ∧ r'.lk.count = r.lk.count) ∧
  (¬ (1 ≤ pid ∧ pid ≤ 1023) ↔ ∀ p, 1 ≤ p → p ≤ 1023 → r.InUse p)

/-- A pid is not in use. -/
def SomePidFree (r : PidRegistrar T) : Prop := ∃ p, 1 ≤ p ∧ p ≤ 1023 ∧ ¬ r.InUse p

section
variable {r r' : PidRegistrar T} {t : T} {pid : Nat}

omit [DecidableEq T] in
theorem PidInv.available_iff_some (h : PidInv r) : r.Available ↔ SomePidFree r := by
  rw [h.available_iff, SomePidFree]
  simp only [pidMin, npid, Nat.lt_succ_iff]

section
variable (h : PidInv r) (hl : LockAtRest r.lk)
include h hl

theorem PidInv.getpid_lock (hrun : pidregGetpid (some r) t = .ok (pid, r')) :
    (r.Available → r'.lk.owner = r.lk.owner ∧ r'.lk.count = r.lk.count) ∧
    (¬ r.Available → r'.lk.owner = some t ∧ r'.lk.count = r.lk.count + 1 ∧
      r.lk.count + 1 < 2 ^ 31) := by
  obtain ⟨lk, b, vs, c, rfl, hp⟩ := h
  change LockAtRest lk at hl
  rw [pidregGetpid_eq hp] at hrun
  obtain ⟨lk₁, htake, hrun1⟩ := of_bind hrun
  obtain ⟨lk₂, htake2, hrun2⟩ := of_bind hrun1
  obtain ⟨lk3, hrel, hrun3⟩ := of_bind hrun2
  obtain ⟨howner, hcount, hne, -⟩ := hl.take htake
  have hrange := toInt_range (lk.count + 1)
  rw [← hcount] at hrange
  obtain ⟨rfl, hpos⟩ := lock_inner hrange.1 hrange.2 hne howner htake2 hrel
  rw [hcount] at hpos
  have hnonneg := hl.nonneg
  obtain ⟨hadd, hmax⟩ := toInt_succ_of_pos (by omega) hl.lt hpos
  split at hrun3
  · rename_i ha
    obtain ⟨lk4, hrel2, hrun4⟩ := of_bind hrun3
    cases hrun4
    exact ⟨fun _ => hl.release htake hrel2, fun hn => absurd ha hn⟩
  · rename_i hn
    cases hrun3
    exact ⟨fun ha => absurd ha hn, fun _ => ⟨howner, hcount.trans hadd, hmax⟩⟩

theorem PidInv.returnpid_lock (hused : r.InUse pid)
    (hrun : pidregReturnpid (some r) t pid = .ok r') :
    r'.lk.owner = r.lk.owner ∧ r'.lk.count = r.lk.count := by
  obtain ⟨lk, b, vs, c, rfl, hp⟩ := h
  rw [pidregReturnpid_eq hp hused] at hrun
  obtain ⟨lk₁, htake, hrun⟩ := of_bind hrun
  obtain ⟨lk₂, hrel, hrun⟩ := of_bind hrun
  obtain ⟨lk3, htake2, hrun⟩ := of_bind hrun
  obtain ⟨lk4, hrel2, hrun⟩ := of_bind hrun
  cases hrun
  obtain ⟨howner, hcount⟩ := hl.release htake hrel
  obtain ⟨howner2, hcount2⟩ := (hl.congr howner hcount).release htake2 hrel2
  exact ⟨howner2.trans howner, hcount2.trans hcount⟩

/-- **A call is reported cleanly exactly if there is a pid to hand out.** -/
theorem PidInv.clean_iff (hrun : pidregGetpid (some r) t = .ok (pid, r')) :
    CleanReport r pid r' ↔ SomePidFree r := by
  obtain ⟨-, havail, hnone⟩ := h.getpid hrun
  obtain ⟨hkept, hheld⟩ := h.getpid_lock hl hrun
  constructor
  · intro hclean
    by_contra hfree
    obtain ⟨-, hcount, -⟩ := hheld (mt h.available_iff_some.1 hfree)
    have := hclean.1.2
    omega
  · intro hfree
    have ha := h.available_iff_some.2 hfree
    obtain ⟨hlo, hlt, -⟩ := havail ha
    refine ⟨hkept ha, fun hout => absurd ⟨hlo, Nat.le_of_lt_succ hlt⟩ hout, fun hall => ?_⟩
    obtain ⟨p, hplo, hphi, hp⟩ := hfree
    exact absurd (hall p hplo hphi) hp

end

end

/-! ## Runs -/

section
variable {r : PidRegistrar T} {tr : List (PidRegistrar T × PidCall T)}

theorem PidRun.atRest (hrun : PidRun tr r) : LockAtRest r.lk := by
  refine (Run.invariant (I := fun r => PidInv r ∧ LockAtRest r.lk) (fun r hinit => ?_)
    (fun r a r' hi hstep => ?_) hrun).2
  · have hrun0 : PidRun [] r := .init hinit
    refine ⟨hrun0.inv, ?_⟩
    obtain ⟨b, hb, -⟩ := pidregCreate_ok
    obtain rfl := Except.ok.inj (hinit.symm.trans hb)
    exact ⟨show (0 : Int) < 2 ^ 31 by decide, Int.le_refl 0, fun _ => rfl, fun _ => rfl⟩
  · obtain ⟨hinv, hl⟩ := hi
    cases a with
    | getpid t =>
      obtain ⟨pid, hstep⟩ := hstep
      obtain ⟨hkept, hheld⟩ := hinv.getpid_lock hl hstep
      refine ⟨(hinv.getpid hstep).1, ?_⟩
      by_cases ha : r.Available
      · exact hl.congr (hkept ha).1 (hkept ha).2
      · obtain ⟨howner, hcount, hmax⟩ := hheld ha
        have hnonneg := hl.nonneg
        refine ⟨hcount ▸ hmax, by omega, ?_⟩
        rw [howner, hcount]
        exact ⟨nofun, fun hzero => by omega⟩
    | returnpid t pid =>
      obtain ⟨howner, hcount⟩ := hinv.returnpid_lock hl hstep.1 hstep.2
      exact ⟨(hinv.returnpid hstep.1 hstep.2).1, hl.congr howner hcount⟩

/-- A call that finds a pid, if it needs one. -/
def FindsPid (r : PidRegistrar T) : PidCall T → Prop
  | .getpid _ => SomePidFree r
  | .returnpid _ _ => True

theorem PidRun.lock_free (hrun : PidRun tr r) (hfinds : ∀ e ∈ tr, FindsPid e.1 e.2) :
    r.lk.owner = none := by
  refine (Run.invariant_of (I := fun r => PidInv r ∧ LockAtRest r.lk ∧ r.lk.owner = none)
    (fun r hinit => ?_) (fun r a r' hi hfind hstep => ?_) hrun hfinds).2.2
  · have hrun0 : PidRun [] r := .init hinit
    obtain ⟨b, hb, -⟩ := pidregCreate_ok
    refine ⟨hrun0.inv, hrun0.atRest, ?_⟩
    obtain rfl := Except.ok.inj (hinit.symm.trans hb)
    rfl
  · obtain ⟨hinv, hl, hfree⟩ := hi
    cases a with
    | getpid t =>
      obtain ⟨pid, hstep⟩ := hstep
      obtain ⟨howner, hcount⟩ :=
        (hinv.getpid_lock hl hstep).1 (hinv.available_iff_some.2 hfind)
      exact ⟨(hinv.getpid hstep).1, hl.congr howner hcount, howner.trans hfree⟩
    | returnpid t pid =>
      obtain ⟨howner, hcount⟩ := hinv.returnpid_lock hl hstep.1 hstep.2
      exact ⟨(hinv.returnpid hstep.1 hstep.2).1, hl.congr howner hcount, howner.trans hfree⟩

/-- **Exhaustion is not reported.**  On any registrar that calls lead to, a call that returns does
what one expects exactly if there is a pid to hand out; and it does return as long as all calls
before it found one. -/
theorem pidregGetpid_clean_iff (hrun : PidRun tr r) (t : T) :
    (∀ pid r', pidregGetpid (some r) t = .ok (pid, r') →
      (CleanReport r pid r' ↔ SomePidFree r)) ∧
    ((∀ e ∈ tr, FindsPid e.1 e.2) → ∃ pid r', pidregGetpid (some r) t = .ok (pid, r')) := by
  refine ⟨fun pid r' hget => hrun.inv.clean_iff hrun.atRest hget, fun hfinds => ?_⟩
  have hfree := hrun.lock_free hfinds
  exact hrun.inv.getpid_returns (hrun.atRest.owner.1 hfree) hfree t

end

/-- The pid 1 is handed out again, and the lock is free again. -/
theorem pidregGetpid_clean_iff_reused :
    ∃ (tr : List (PidRegistrar Unit × PidCall Unit)) (r r' : PidRegistrar Unit),
    PidRun tr r ∧ tr.length = 3 ∧ pidregGetpid (some r) () = .ok (1, r') ∧ CleanReport r 1 r' := by
  obtain ⟨tr, r, r', hrun, hlen, hqueued, hget⟩ := exists_reuse_run
  have hfree := hrun.inv.available_iff_some.1 (.inr (by simp [hqueued]))
  exact ⟨tr, r, r', hrun, hlen, hget, ((pidregGetpid_clean_iff hrun ()).1 1 r' hget).2 hfree⟩

/-- **The thread that asks for the 1024th pid gets 6, which is in use, and keeps the lock.** -/
theorem not_cleanReport_full :
    ∃ (tr : List (PidRegistrar Unit × PidCall Unit)) (r r' : PidRegistrar Unit),
    PidRun tr r ∧ pidregGetpid (some r) () = .ok (6, r') ∧ r.InUse 6 ∧
      r.lk.owner = none ∧ r'.lk.owner = some () ∧ ¬ CleanReport r 6 r' := by
  obtain ⟨tr, lk, b, hrun, -, hp, hc, ho⟩ := pidRun_take () 1023 (by decide)
  have hget := pidregGetpid_eq hp lk ()
  rw [lock_twice hc ho, if_neg (by decide)] at hget
  have hused : b.has 6 = true := (hp.pool.cover 6 (by decide) (by decide)).resolve_right
      List.not_mem_nil
  refine ⟨tr, _, _, hrun, hget, hused, ho, rfl, fun hclean => ?_⟩
  exact absurd (hclean.1.1.trans ho) nofun

end JinxOS
