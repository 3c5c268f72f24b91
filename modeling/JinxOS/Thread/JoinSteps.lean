import JinxOS.Thread.JoinPhases

/-!
# The steps of a rendezvous

Every step of `thread_fork`, `thread_join` and `thread_exit` that can be taken in a state with the
invariant returns, and keeps the invariant.  The lemmas are named after the step functions.
-/

namespace JinxOS

open Function (update_self update_of_ne update_idem update_eq_self update)

variable {T : Type} [DecidableEq T]

/-! ## Semaphores with interrupts off -/

variable {s s' : JoinSys T} {th : JoinThread T} {κ : ChildPhase} {π : ParentPhase} {q : JoinPc T}

section
variable {α : Type} (f : SemId T → α) {c d : T} (x : α)

theorem update_psem_csem : update f (.psem c) x (.csem d) = f (.csem d) :=
  update_of_ne (by simp) ..

theorem update_csem_psem : update f (.csem c) x (.psem d) = f (.psem d) :=
  update_of_ne (by simp) ..

theorem update_psem_ne (h : d ≠ c) : update f (.psem c) x (.psem d) = f (.psem d) :=
  update_of_ne (by simpa using h) ..

theorem update_csem_ne (h : d ≠ c) : update f (.csem c) x (.csem d) = f (.csem d) :=
  update_of_ne (by simpa using h) ..

theorem Kept.of_psem {y : Option (Semaphore T)} (h : d ≠ c)
    (hsem : s'.sem = update s.sem (.psem c) y) (hthread : s'.thread d = s.thread d)
    (hhist : s'.hist d = s.hist d) : Kept s s' d :=
  ⟨.inl hthread, hsem ▸ update_psem_ne s.sem y h, hsem ▸ update_psem_csem s.sem y, hhist⟩

theorem Kept.of_csem {y : Option (Semaphore T)} (h : d ≠ c)
    (hsem : s'.sem = update s.sem (.csem c) y) (hthread : s'.thread d = s.thread d)
    (hhist : s'.hist d = s.hist d) : Kept s s' d :=
  ⟨.inl hthread, hsem ▸ update_csem_psem s.sem y, hsem ▸ update_csem_ne s.sem y h, hhist⟩

end

section
variable {s : JoinSys T} {t : T} {id : SemId T} {sem sem' : Semaphore T} {again : Bool}

omit [DecidableEq T] in
theorem JoinSys.getThread_some {c : T} (h : s.thread c = some th) : s.getThread c = .ok th := by
  rw [JoinSys.getThread, h]

omit [DecidableEq T] in
theorem JoinSys.getSem_some (h : s.sem id = some sem) : s.getSem id = .ok sem := by
  rw [JoinSys.getSem, h]

theorem JoinSys.p_taken (hsem : s.sem id = some sem)
    (hsec : semaphoreSection sem t again = .ok (true, sem')) : s.p t id again =
      .ok (true, { s.setSem id (some sem') with cpu := s.cpu.acquired.released }) := by
  rw [JoinSys.p, JoinSys.getSem_some hsem, ok_bind, hsec, ok_bind]
  rfl

theorem JoinSys.p_slept (hsem : s.sem id = some sem)
    (hsec : semaphoreSection sem t again = .ok (false, sem')) : s.p t id again =
      .ok (false, { s.setSem id (some sem') with
        cpu := s.cpu.acquired.switched, saved := update s.saved t false, cur := none }) := by
  rw [JoinSys.p, JoinSys.getSem_some hsem, ok_bind, hsec, ok_bind]
  rfl

theorem Cpu.intr_released {c : Cpu} (h : c.intr = false) : c.acquired.released.intr = false := by
  simp [Cpu.acquired, Cpu.released, h]

theorem Cpu.intr_madeRunnable (c : Cpu) : c.acquired.madeRunnable.released.intr = false := by
  simp [Cpu.acquired, Cpu.released, Cpu.madeRunnable, cli, ifx]

theorem JoinSys.v_ok (hsem : s.sem id = some sem) (hv : semaphoreV sem = .ok sem')
    (hoff : s.cpu.intr = false) :
    ∃ cpu : Cpu, cpu.intr = false ∧ s.v id = .ok { s.setSem id (some sem') with cpu := cpu } := by
  rw [JoinSys.v, JoinSys.getSem_some hsem, ok_bind, hv, ok_bind]
  refine ⟨_, ?_, rfl⟩
  split
  · exact Cpu.intr_released hoff
  · exact Cpu.intr_madeRunnable _

theorem JoinSys.semaphoreDestroy_ok (hsem : s.sem id = some sem) (hq : sem.wchan.asleep = []) :
    s.semaphoreDestroy id = .ok (s.setSem id none) := by
  rw [JoinSys.semaphoreDestroy, JoinSys.getSem_some hsem, ok_bind, hq]
  rfl

end

/-! ## The steps of the parent -/

section
variable {s : JoinSys T} {c t : T} {on : Bool}

omit [DecidableEq T] in
theorem Fits.not_over (h : Fits κ π) (hπ : π ≠ .done) : κ.over = false := by
  cases κ with
  | ended v => exact absurd (h.done v (.inr rfl)) hπ
  | _ => rfl

omit [DecidableEq T] in
theorem Pair.objects {p : T} (h : Pair s p c κ π) (hπ : π ≠ .done) :
    κ.over = false ∧ s.thread c = some (threadOf p c κ π) ∧
      s.sem (.psem c) = some (psemOf p κ.hasRaised π) ∧
      s.sem (.csem c) = some (csemOf c κ π.released) := by
  have hover := h.fits.not_over hπ
  have hpsem := h.psem
  have hcsem := h.csem
  rw [hover, if_neg Bool.false_ne_true] at hpsem hcsem
  exact ⟨hover, h.thread hover, hpsem, hcsem⟩

theorem JoinInv.joining (h : JoinInv s) (hfrom : s.pc t = q) (htgt : q.target = some c) :
    c ≠ t ∧ ∃ κ, Pair s t c κ q.joinPhase ∧ κ.over = false ∧
      s.thread c = some (threadOf t c κ q.joinPhase) ∧
      s.sem (.psem c) = some (psemOf t κ.hasRaised q.joinPhase) ∧
      s.sem (.csem c) = some (csemOf c κ q.joinPhase.released) := by
  subst hfrom
  have hown := h.own c
  rw [Own, h.target t c htgt] at hown
  obtain ⟨hct, -, κ, π, hpair⟩ := hown
  obtain rfl := hpair.parent.eq_joinPhase htgt
  exact ⟨hct, κ, hpair, hpair.objects (by cases s.pc t <;> simp [JoinPc.joinPhase])⟩

variable (h : JoinInv s) (hcur : s.cur = some t)
include h hcur

theorem JoinInv.intr_off (hoff : (s.pc t).Off) : s.cpu.intr = false := by
  have hquiet := h.off t hoff
  rwa [Quiet, if_pos hcur] at hquiet

theorem JoinInv.not_busy (hct : c ≠ t) : ¬ (s.pc c).Busy := by
  intro hbusy
  have hoff : (s.pc c).Off := by cases hpc : s.pc c <;> simp_all [JoinPc.Off, JoinPc.Busy]
  have hquiet := h.off c hoff
  rw [Quiet, if_neg (fun he => hct (Option.some.inj (he.symm.trans hcur)))] at hquiet
  exact hquiet.2 hbusy

theorem JoinInv.joinEnter (hpc : s.pc t = .user) (hpar : (s.hist c).parent = some t)
    (hcalled : (s.hist c).called = false) : ∃ s', joinEnter s t c = .ok s' ∧ JoinInv s' := by
  have hown := h.own c
  rw [Own, hpar] at hown
  obtain ⟨hct, -, κ, π, hpair⟩ := hown
  obtain rfl : π = .idle := by
    rw [hpair.hist] at hcalled
    simpa [histOf, ParentPhase.called] using hcalled
  obtain ⟨hover, hthread, hpsem, hcsem⟩ := hpair.objects (by simp)
  have hrun : JinxOS.joinEnter s t c =
      .ok ((s.goto t (.joinEntered c)).note c { s.hist c with called := true }) := by
    rw [JinxOS.joinEnter, JoinSys.getThread_some hthread, ok_bind]
    rfl
  refine ⟨_, hrun, h.parent_step (ρ := .asking) hcur hct hpair ?_ hover hpc (.inl rfl) (.inr rfl)
    (.goes_on hcur rfl rfl rfl trivial fun hoff => hoff.elim) (fun d hd => ?_) (.inl rfl) ?_
    hthread hpsem hcsem⟩
  · exact ⟨by simp [ParentPhase.collected], fun v hv => absurd (hpair.fits.done v hv) (by simp),
      by simp⟩
  · exact ⟨.inl rfl, rfl, rfl, update_of_ne hd ..⟩
  · simp only [JoinSys.note, update_self, hpair.hist]
    rfl

theorem JoinInv.joinCheck (hfrom : s.pc t = .joinEntered c) :
    ∃ s', joinCheck s t c = .ok s' ∧ JoinInv s' := by
  obtain ⟨hct, κ, hpair, hover, hthread, hpsem, hcsem⟩ := h.joining hfrom rfl
  have hrun : JinxOS.joinCheck s t c =
      .ok ({ s with cpu := (cli s.cpu).2 }.goto t (.joinOff c s.cpu.intr)) := by
    have hget : JoinSys.getThread { s with cpu := (cli s.cpu).2 } c = .ok _ :=
      JoinSys.getThread_some hthread
    simp only [JinxOS.joinCheck, cli] at hget ⊢
    rw [if_neg hct, hget, ok_bind]
    simp [threadOf, JoinPc.joinPhase, ok_bind]
  exact ⟨_, hrun, h.parent_step hcur hct hpair hpair.fits hover hfrom (.inr rfl) (.inr rfl)
    (.goes_on hcur rfl rfl rfl trivial fun _ => rfl) (fun d hd => ⟨.inl rfl, rfl, rfl, rfl⟩)
    (.inr ⟨_, rfl⟩) hpair.hist hthread hpsem hcsem⟩

theorem JoinInv.joinWait_taken {again : Bool} (hfrom : s.pc t = q)
    (hq : q = .joinOff c on ∨ q = .joinAsleep c on (.psem c)) (hpair : Pair s t c κ q.joinPhase)
    (hraised : κ.hasRaised = true)
    (hsec : semaphoreSection (psemOf t true q.joinPhase) t again =
      .ok (true, psemOf t true .down)) :
    ∃ s', joinWait s t c on (.psem c) again = .ok s' ∧ JoinInv s' := by
  have htgt : q.target = some c := by rcases hq with rfl | rfl <;> rfl
  obtain ⟨hct, -⟩ := h.joining hfrom htgt
  obtain ⟨hover, hthread, hpsem, hcsem⟩ :=
    hpair.objects (by rcases hq with rfl | rfl <;> simp [JoinPc.joinPhase])
  rw [hraised] at hpsem
  have hoff : s.cpu.intr = false := by
    refine h.intr_off hcur ?_
    rcases hq with rfl | rfl <;> rw [hfrom] <;> trivial
  have hfits : Fits κ .down := by
    refine ⟨fun _ => hraised, fun v hv => ?_, by simp⟩
    have hdone := hpair.fits.done v hv
    rcases hq with rfl | rfl <;> simp [JoinPc.joinPhase] at hdone
  have hhist : ({ s.hist c with collected := true } : JoinHist T) = histOf t κ .down := by
    rw [hpair.hist]
    rcases hq with rfl | rfl <;> rfl
  refine ⟨_, by rw [joinWait, JoinSys.p_taken hpsem hsec, ok_bind]; rfl, ?_⟩
  refine h.parent_step (ρ := .down) hcur hct hpair hfits hover hfrom (.inr htgt) (.inr rfl)
    (.goes_on hcur rfl rfl rfl trivial fun _ => Cpu.intr_released hoff)
    (fun d hd => .of_psem hd rfl rfl (update_of_ne hd ..)) ⟨_, rfl⟩
    ((update_self ..).trans hhist) ?_ ?_ ?_
  · rcases hq with rfl | rfl <;> exact hthread
  · rw [hraised]
    exact update_self ..
  · rcases hq with rfl | rfl <;> exact hcsem

theorem JoinInv.joinWait_slept (hfrom : s.pc t = .joinOff c on) (hpair : Pair s t c κ .asking)
    (hraised : κ.hasRaised = false) :
    ∃ s', joinWait s t c on (.psem c) false = .ok s' ∧ JoinInv s' := by
  obtain ⟨hct, -⟩ := h.joining hfrom rfl
  obtain ⟨hover, hthread, hpsem, hcsem⟩ := hpair.objects (by simp)
  have hsec := semaphoreP_psem_early t
  rw [hraised] at hpsem
  have hfits : Fits κ .asleep :=
    ⟨by simp [ParentPhase.collected], fun v hv => absurd (hpair.fits.done v hv) (by simp), by simp⟩
  refine ⟨_, by rw [joinWait, JoinSys.p_slept hpsem hsec, ok_bind]; rfl, ?_⟩
  refine h.parent_step (ρ := .asleep) hcur hct hpair hfits hover hfrom (.inr rfl) (.inr rfl)
    (.sleeps rfl rfl rfl fun hbusy => hbusy) (fun d hd => .of_psem hd rfl rfl rfl)
    ⟨_, rfl⟩ hpair.hist
    hthread ?_ ?_
  · rw [hraised]
    exact update_self ..
  · exact hcsem

theorem JoinInv.joinOff (hfrom : s.pc t = .joinOff c on) :
    ∃ s', joinWait s t c on (.psem c) false = .ok s' ∧ JoinInv s' := by
  obtain ⟨-, κ, hpair, -⟩ := h.joining hfrom rfl
  cases hraised : κ.hasRaised with
  | false => exact h.joinWait_slept hcur hfrom hpair hraised
  | true => exact h.joinWait_taken hcur hfrom (.inl rfl) hpair hraised (semaphoreP_psem t)

/-- A section of `P(thread->psem)` after a wakeup: the child has raised `psem`. -/
theorem JoinInv.joinAsleep {id : SemId T} (hfrom : s.pc t = .joinAsleep c on id) :
    ∃ s', joinWait s t c on id true = .ok s' ∧ JoinInv s' := by
  obtain ⟨-, κ, hpair, -, -, hpsem, -⟩ := h.joining hfrom rfl
  obtain rfl : id = .psem c := by
    obtain ⟨on', hat⟩ := hpair.parent
    rw [hfrom] at hat
    exact (JoinPc.joinAsleep.inj hat).2.2
  have hraised : κ.hasRaised = true := by
    have hwoken := h.cur t hcur
    simp only [JoinSys.Runnable, hfrom, JoinSys.Woken, hpsem] at hwoken
    cases hraised : κ.hasRaised with
    | true => rfl
    | false => simp [psemOf, hraised, JoinPc.joinPhase] at hwoken
  exact h.joinWait_taken hcur hfrom (.inr rfl) hpair hraised (semaphorePAgain_psem t)

theorem JoinInv.joinSignal (hfrom : s.pc t = .joinDown c on) :
    ∃ s', joinSignal s t c on = .ok s' ∧ JoinInv s' := by
  obtain ⟨hct, κ, hpair, hover, hthread, hpsem, hcsem⟩ := h.joining hfrom rfl
  have hoff := h.intr_off hcur (by rw [hfrom]; trivial)
  obtain ⟨v, rfl⟩ : ∃ v, κ = .asleep v := by
    have hraised := hpair.fits.raised rfl
    have hbusy := h.not_busy hcur hct
    have hat := hpair.child
    cases κ with
    | running | exiting v => simp [ChildPhase.hasRaised] at hraised
    | raised v =>
      rw [show s.pc c = _ from hat] at hbusy
      exact absurd trivial hbusy
    | asleep v => exact ⟨v, rfl⟩
    | lowered v => exact absurd (hpair.fits.done v (.inl rfl)) (by simp [JoinPc.joinPhase])
    | ended v => simp [ChildPhase.over] at hover
  obtain ⟨cpu, hintr, hv⟩ := JoinSys.v_ok hcsem (semaphoreV_csem c v) hoff
  refine ⟨_, by
    rw [JinxOS.joinSignal, JoinSys.getThread_some hthread, ok_bind, threadOf, deref_some,
      ok_bind, hv, ok_bind], ?_⟩
  refine h.parent_step (ρ := .up) hcur hct hpair ⟨fun _ => rfl, by simp, fun _ => ⟨v, rfl⟩⟩ rfl
    hfrom (.inr rfl) (.inr rfl) (.goes_on hcur rfl rfl rfl trivial fun _ => hintr)
    (fun d hd => .of_csem hd rfl rfl (update_of_ne hd ..)) ⟨_, rfl⟩ ?_ hthread hpsem
    (update_self ..)
  refine (update_self ..).trans ?_
  dsimp only [JoinSys.setSem]
  rw [hpair.hist]
  rfl

theorem JoinInv.joinRead (hfrom : s.pc t = .joinUp c on) :
    ∃ s', joinRead s t c on = .ok s' ∧ JoinInv s' := by
  obtain ⟨hct, κ, hpair, hover, hthread, hpsem, hcsem⟩ := h.joining hfrom rfl
  have hoff := h.intr_off hcur (by rw [hfrom]; trivial)
  obtain ⟨v, rfl⟩ := hpair.fits.asleep (.inl rfl)
  refine ⟨_, by rw [JinxOS.joinRead, JoinSys.getThread_some hthread, ok_bind], ?_⟩
  refine h.parent_step (ρ := .read) hcur hct hpair ⟨fun _ => rfl, by simp, fun _ => ⟨v, rfl⟩⟩
    rfl hfrom (.inr rfl) (.inr rfl) (.goes_on hcur rfl rfl rfl trivial fun _ => hoff)
    (fun d hd => ⟨.inl rfl, rfl, rfl, update_of_ne hd ..⟩) ⟨_, rfl⟩ ?_ hthread hpsem
    hcsem
  refine (update_self ..).trans ?_
  rw [hpair.hist]
  rfl

theorem JoinInv.joinReturn (hfrom : s.pc t = .joinRead c on) :
    ∃ s', joinReturn s t c on = .ok s' ∧ JoinInv s' := by
  obtain ⟨hct, κ, hpair, hover, hthread, hpsem, hcsem⟩ := h.joining hfrom rfl
  obtain ⟨v, rfl⟩ := hpair.fits.asleep (.inr rfl)
  refine ⟨_, by rw [JinxOS.joinReturn, JoinSys.getThread_some hthread, ok_bind], ?_⟩
  exact h.parent_step (ρ := .done) hcur hct hpair ⟨fun _ => rfl, by simp, by simp⟩
    rfl hfrom (.inr rfl) (.inl rfl) (.goes_on hcur rfl rfl rfl trivial fun hoff => hoff.elim)
    (fun d hd => ⟨.inl (update_of_ne hd ..), rfl, rfl, rfl⟩) (fun he => nomatch he)
    hpair.hist (update_self ..) hpsem hcsem

end

/-! ## The steps of the child -/

section
variable {s : JoinSys T} {c t : T}

theorem JoinInv.exiting (h : JoinInv s) (hfrom : s.pc t = q) (hq : ¬ q.Alone) :
    ∃ p, t ≠ p ∧ ∃ v π, Pair s p t (q.exitPhase v) π := by
  subst hfrom
  have hown := h.own t
  rw [Own] at hown
  cases hp : (s.hist t).parent with
  | none =>
    rw [hp] at hown
    exact absurd hown.2 hq
  | some p =>
    rw [hp] at hown
    obtain ⟨htp, -, κ, π, hpair⟩ := hown
    obtain ⟨v, rfl⟩ := hpair.child.eq_exitPhase hq
    exact ⟨p, htp, v, π, hpair⟩

/-- The state in which `thread_exit` has stored its argument. -/
def JoinSys.exited (s : JoinSys T) (t : T) (th : JoinThread T) (ret : Int) (q : JoinPc T) :
    JoinSys T :=
  { ((s.setThread t (some { th with rval := ret })).note t
      { s.hist t with passed := some ret }).goto t q with cpu := (cli s.cpu).2 }

theorem exitEnter_eq (hth : s.thread t = some th) (ret : Int) :
    exitEnter s t ret =
      .ok (s.exited t th ret (if th.parent.isSome then .exitUp else .exitEnd)) := by
  rw [exitEnter, JoinSys.getThread_some hth]
  rfl

theorem Kept.exited {ret : Int} (h : c ≠ t) : Kept s (s.exited t th ret q) c :=
  ⟨.inl (update_of_ne h ..), rfl, rfl, update_of_ne h ..⟩

theorem Kept.exorcised (hthread : s'.thread = s.threadExorcise.thread) (hsem : s'.sem = s.sem)
    (hhist : s'.hist = s.hist) (c : T) : Kept s s' c := by
  refine ⟨?_, by rw [hsem], by rw [hsem], by rw [hhist]⟩
  rw [hthread, JoinSys.threadExorcise]
  by_cases hz : s.pc c = .zombie
  · exact .inr ⟨hz, if_pos hz⟩
  · exact .inl (if_neg hz)

variable (h : JoinInv s) (hcur : s.cur = some t)
include h hcur

theorem JoinInv.exitEnter_alone (hfrom : s.pc t = .user) (hp : (s.hist t).parent = none)
    (hth : s.thread t = some th) (hpar : th.parent = none) (ret : Int) :
    JoinInv (s.exited t th ret .exitEnd) := by
  have hhist : ∀ d, ((s.exited t th ret .exitEnd).hist d).made = (s.hist d).made ∧
      ((s.exited t th ret .exitEnd).hist d).parent = (s.hist d).parent := by
    intro d
    by_cases hd : d = t
    · subst hd
      simp [JoinSys.exited, JoinSys.goto, JoinSys.note, JoinSys.setThread]
    · rw [(Kept.exited hd).hist]
      exact ⟨rfl, rfl⟩
  have hto : (s.exited t th ret .exitEnd).pc t = .exitEnd := update_self ..
  have hpc : ∀ u, u ≠ t → (s.exited t th ret .exitEnd).pc u = s.pc u :=
    fun u hu => update_of_ne hu ..
  have hthread : (s.exited t th ret .exitEnd).thread t = some { th with rval := ret } :=
    update_self ..
  refine h.of_step hcur (.goes_on hcur rfl rfl rfl trivial fun _ => rfl) hhist
    (fun d hd => Kept.exited ?_) (fun u hu => ?_) (fun d hd => ?_) (fun d => ?_)
  · rintro rfl
    simp [h.made hcur] at hd
  · by_cases hut : u = t
    · subst hut
      exact .inr (by rw [hthread]; rfl)
    · have hsame : (s.exited t th ret .exitEnd).thread u = s.thread u := update_of_ne hut ..
      exact .inr (hsame ▸ hu)
  · cases hd
  · by_cases hd : d = t
    · subst hd
      rw [Own, (hhist d).2, hp, hthread, hto]
      exact ⟨fun th' hth' => by cases hth'; exact hpar, trivial⟩
    · refine (h.own d).move (Kept.exited hd) (fun p hp => (hhist p).1.trans hp) hpc
        (fun he => absurd he hd)
        (fun π hπ => ?_) (fun he => absurd he hd)
      refine hπ.away ?_ ?_
      · rw [hfrom]
        exact fun he => by cases he
      · rw [hto]
        exact fun he => by cases he

theorem JoinInv.exitEnter_joinable (hfrom : s.pc t = .user) {p : T} (htp : t ≠ p)
    (hpair : Pair s p t κ π) (hth : s.thread t = some th) (ret : Int) :
    th.parent.isSome = true ∧ JoinInv (s.exited t th ret .exitUp) := by
  obtain rfl : κ = .running := by
    have hat := hpair.child
    rw [hfrom] at hat
    cases κ with
    | running => rfl
    | ended v => rcases hat with hat | hat <;> cases hat
    | _ => cases hat
  obtain ⟨hcollected, hdone⟩ := hpair.fits.early rfl
  obtain ⟨-, hthread, hpsem, hcsem⟩ := hpair.objects hdone
  obtain rfl : th = threadOf p t .running π := Option.some.inj (hth.symm.trans hthread)
  refine ⟨by simp [threadOf, hdone], ?_⟩
  refine h.child_step (μ := .exiting ret) hcur htp hpair ⟨?_, by simp, fun hπ => ?_⟩ hfrom rfl rfl
    (.goes_on hcur rfl rfl rfl trivial fun _ => rfl) (fun d hd => Kept.exited hd) rfl ?_ ?_
    (fun _ => update_self ..) hpsem hcsem
  · simp [hcollected]
  · obtain ⟨v, hv⟩ := hpair.fits.asleep hπ
    cases hv
  · refine (update_self ..).trans ?_
    rw [hpair.hist]
    cases π <;> first | rfl | simp [ParentPhase.collected] at hcollected
  · exact Option.isSome_iff_exists.2 ⟨_, update_self ..⟩

theorem JoinInv.exitEnter (hfrom : s.pc t = .user)
    (ret : Int) : ∃ s', exitEnter s t ret = .ok s' ∧ JoinInv s' := by
  obtain ⟨th, hth⟩ := Option.isSome_iff_exists.1 (h.live t (by rw [hfrom]; trivial))
  refine ⟨_, exitEnter_eq hth ret, ?_⟩
  have hown := h.own t
  rw [Own] at hown
  cases hp : (s.hist t).parent with
  | none =>
    rw [hp] at hown
    have hpar := hown.1 th hth
    simp only [hpar, Option.isSome_none, Bool.false_eq_true, if_false]
    exact h.exitEnter_alone hcur hfrom hp hth hpar ret
  | some p =>
    rw [hp] at hown
    obtain ⟨htp, -, κ, π, hpair⟩ := hown
    obtain ⟨hpar, hinv⟩ := h.exitEnter_joinable hcur hfrom htp hpair hth ret
    simp only [hpar, if_true]
    exact hinv

theorem JoinInv.exitSignal (hfrom : s.pc t = .exitUp) :
    ∃ s', exitSignal s t = .ok s' ∧ JoinInv s' := by
  obtain ⟨p, htp, v, π, (hpair : Pair s p t (.exiting v) π)⟩ := h.exiting hfrom fun hf => hf
  have hoff := h.intr_off hcur (by rw [hfrom]; trivial)
  obtain ⟨hcollected, hdone⟩ := hpair.fits.early rfl
  obtain ⟨-, hthread, hpsem, hcsem⟩ := hpair.objects hdone
  obtain ⟨cpu, hintr, hv⟩ := JoinSys.v_ok hpsem (semaphoreV_psem p hcollected) hoff
  refine ⟨_, by
    rw [JinxOS.exitSignal, JoinSys.getThread_some hthread, ok_bind, threadOf, deref_some,
      ok_bind, hv, ok_bind], ?_⟩
  refine h.child_step (μ := .raised v) hcur htp hpair ⟨fun _ => rfl, by simp, fun hπ => ?_⟩ hfrom
    rfl rfl (.goes_on hcur rfl rfl rfl trivial fun _ => hintr) (fun d hd => .of_psem hd rfl rfl rfl)
    rfl hpair.hist (Option.isSome_iff_exists.2 ⟨_, hthread⟩) (fun _ => hthread)
    (update_self ..) hcsem
  obtain ⟨v', hv'⟩ := hpair.fits.asleep hπ
  cases hv'

theorem JoinInv.exitWait_taken {again : Bool} (hfrom : s.pc t = q)
    (hq : q = .exitOff ∨ q = .exitAsleep (.csem t)) {p : T} (htp : t ≠ p) {v : Int}
    (hκ : κ = .raised v ∨ κ = .asleep v) (hpair : Pair s p t κ .done)
    (hsec : semaphoreSection (csemOf t κ true) t again = .ok (true, csemOf t (.lowered v) true)) :
    ∃ s', exitWait s t (.csem t) again = .ok s' ∧ JoinInv s' := by
  have hoff : s.cpu.intr = false := by
    refine h.intr_off hcur ?_
    rcases hq with rfl | rfl <;> rw [hfrom] <;> trivial
  have hover : κ.over = false := by rcases hκ with rfl | rfl <;> rfl
  have hthread := hpair.thread hover
  have hpsem := hpair.psem
  have hcsem := hpair.csem
  rw [hover, if_neg Bool.false_ne_true] at hpsem hcsem
  refine ⟨_, by rw [JinxOS.exitWait, JoinSys.p_taken hcsem hsec, ok_bind], ?_⟩
  refine h.child_step (μ := .lowered v) hcur htp hpair ⟨fun _ => rfl, fun _ _ => rfl, by simp⟩ hfrom
    ?_ rfl (.goes_on hcur rfl rfl rfl trivial fun _ => Cpu.intr_released hoff)
    (fun d hd => .of_csem hd rfl rfl rfl) rfl ?_ (Option.isSome_iff_exists.2 ⟨_, hthread⟩)
    (fun _ => ?_) ?_ (update_self ..)
  · rcases hq with rfl | rfl <;> rfl
  · rcases hκ with rfl | rfl <;> exact hpair.hist
  · rcases hκ with rfl | rfl <;> exact hthread
  · rcases hκ with rfl | rfl <;> exact hpsem

theorem JoinInv.exitWait_slept (hfrom : s.pc t = .exitOff) {p : T} (htp : t ≠ p) {v : Int}
    (hpair : Pair s p t (.raised v) π) (hreleased : π.released = false) :
    ∃ s', exitWait s t (.csem t) false = .ok s' ∧ JoinInv s' := by
  have hthread := hpair.thread rfl
  have hpsem := hpair.psem
  have hcsem := hpair.csem
  have hsec := semaphoreP_csem_early t v
  simp only [ChildPhase.over, Bool.false_eq_true, if_false, hreleased] at hpsem hcsem
  refine ⟨_, by rw [JinxOS.exitWait, JoinSys.p_slept hcsem hsec, ok_bind], ?_⟩
  refine h.child_step (μ := .asleep v) hcur htp hpair ⟨fun _ => rfl, by simp,
    fun _ => ⟨v, rfl⟩⟩ hfrom
    rfl rfl (.sleeps rfl rfl rfl fun hbusy => hbusy) (fun d hd => .of_csem hd rfl rfl rfl) rfl
    hpair.hist (Option.isSome_iff_exists.2 ⟨_, hthread⟩) (fun _ => hthread) hpsem ?_
  simp only [ChildPhase.over, Bool.false_eq_true, if_false, hreleased]
  exact update_self ..

theorem JoinInv.exitOff (hfrom : s.pc t = .exitOff) :
    ∃ s', exitWait s t (.csem t) false = .ok s' ∧ JoinInv s' := by
  obtain ⟨p, htp, v, π, (hpair : Pair s p t (.raised v) π)⟩ := h.exiting hfrom fun hf => hf
  cases hreleased : π.released with
  | false => exact h.exitWait_slept hcur hfrom htp hpair hreleased
  | true =>
    obtain rfl : π = .done := by
      have hasleep := hpair.fits.asleep
      cases π <;> simp_all [ParentPhase.released]
    exact h.exitWait_taken hcur hfrom (.inl rfl) htp (.inl rfl) hpair (semaphoreP_csem t v)

/-- A section of `P(thisthread->csem)` after a wakeup: the parent has returned. -/
theorem JoinInv.exitAsleep {id : SemId T}
    (hfrom : s.pc t = .exitAsleep id) : ∃ s', exitWait s t id true = .ok s' ∧ JoinInv s' := by
  obtain ⟨p, htp, v, π, (hpair : Pair s p t (.asleep v) π)⟩ := h.exiting hfrom fun hf => hf
  obtain rfl : id = .csem t := JoinPc.exitAsleep.inj (hfrom.symm.trans hpair.child)
  have hreleased : π.released = true := by
    have hwoken := h.cur t hcur
    have hcsem := hpair.csem
    simp only [ChildPhase.over, Bool.false_eq_true, if_false] at hcsem
    simp only [JoinSys.Runnable, hfrom, JoinSys.Woken, hcsem] at hwoken
    cases hreleased : π.released with
    | true => rfl
    | false => simp [csemOf, hreleased] at hwoken
  -- the parent is not current, so it is not between its `V` and its return
  have hbusy := h.not_busy hcur htp.symm
  obtain rfl : π = .done := by
    have hparent := hpair.parent
    cases π with
    | done => rfl
    | up | read =>
      obtain ⟨on, hon⟩ := hparent
      rw [hon] at hbusy
      exact absurd trivial hbusy
    | _ => exact absurd hreleased (by simp [ParentPhase.released])
  exact h.exitWait_taken hcur hfrom (.inr rfl) htp (.inr rfl) hpair (semaphorePAgain_csem t v)

theorem JoinInv.exitDestroy (hfrom : s.pc t = .exitDown) :
    ∃ s', exitDestroy s t = .ok s' ∧ JoinInv s' := by
  obtain ⟨p, htp, v, π, (hpair : Pair s p t (.lowered v) π)⟩ := h.exiting hfrom fun hf => hf
  have hoff := h.intr_off hcur (by rw [hfrom]; trivial)
  obtain rfl := hpair.fits.done v (.inl rfl)
  have hthread := hpair.thread rfl
  have hdestroyP := JoinSys.semaphoreDestroy_ok hpair.psem rfl
  have hcsem : (s.setSem (.psem t) none).sem (.csem t) = some (csemOf t (.lowered v) true) :=
    hpair.csem
  have hdestroyC := JoinSys.semaphoreDestroy_ok hcsem rfl
  refine ⟨_, by
    rw [JinxOS.exitDestroy, JoinSys.getThread_some hthread, ok_bind, threadOf, deref_some,
      ok_bind, hdestroyP, ok_bind, deref_some, ok_bind, hdestroyC,
      ok_bind], ?_⟩
  refine h.child_step (μ := .ended v) hcur htp hpair ⟨fun _ => rfl, fun _ _ => rfl, by simp⟩ hfrom
    rfl rfl (.goes_on hcur rfl rfl rfl trivial fun _ => hoff)
    (fun d hd => ⟨.inl (update_of_ne hd ..), ?_, ?_, rfl⟩) (.inl rfl) hpair.hist
    (Option.isSome_iff_exists.2 ⟨_, update_self ..⟩) (fun hover => nomatch hover) ?_
    (update_self ..)
  · exact update_psem_ne s.sem none hd
  · exact update_csem_ne (update s.sem (.psem t) none) none hd
  · exact update_self ..

theorem JoinInv.exitSwitch (hfrom : s.pc t = .exitEnd) :
    ∃ s', exitSwitch s t = .ok s' ∧ JoinInv s' := by
  obtain ⟨th, hth⟩ := Option.isSome_iff_exists.1 (h.live t (by rw [hfrom]; trivial))
  refine ⟨_, by rw [JinxOS.exitSwitch, JoinSys.getThread_some hth, ok_bind], ?_⟩
  refine h.own_step hcur hfrom ⟨update_self .., fun u hu => update_of_ne hu ..,
      fun _ _ => rfl, .inr ⟨rfl, fun hoff => ?_⟩⟩ (Kept.exorcised rfl rfl rfl) rfl (fun κ hκ => ?_)
    (fun c π hπ => hπ.away (fun he => nomatch he) (fun he => nomatch he)) (fun _ => trivial)
  · have hoff : (update s.pc t JoinPc.zombie t).Off := hoff
    rw [update_self] at hoff
    exact hoff.elim
  · cases κ with
    | ended v => exact .inr rfl
    | running => exact absurd rfl hκ
    | _ => exact nomatch hκ

theorem JoinInv.start (hfrom : s.pc t = .start) :
    JoinInv { s.threadExorcise.goto t .user with cpu := { s.cpu with intr := true } } :=
  h.own_step hcur hfrom (.goes_on hcur rfl rfl rfl trivial fun hoff => hoff.elim)
    (Kept.exorcised rfl rfl rfl) rfl (fun _ hκ => hκ.running trivial trivial)
    (fun _ _ hπ => hπ.away (fun he => nomatch he) (fun he => nomatch he)) (fun _ => trivial)

end

/-! ## Switches and forks -/

section
variable {s : JoinSys T} {c t : T}

theorem JoinInv.yield (h : JoinInv s) (hcur : s.cur = some t)
    (hok : s.pc t = .user ∨ s.cpu.intr = true) :
    ∃ s', joinStep s t .yield = .ok s' ∧ JoinInv s' := by
  refine ⟨_, rfl, ?_⟩
  refine h.own_step hcur rfl ⟨rfl, fun _ _ => rfl, fun u hu => update_of_ne hu ..,
      .inr ⟨rfl, fun hoff => ?_⟩⟩ (Kept.exorcised rfl rfl rfl) rfl (fun _ hκ => hκ)
    (fun _ _ hπ => hπ) (fun halone => halone)
  have hoff : (s.pc t).Off := hoff
  rcases hok with huser | hintr
  · rw [huser] at hoff
    exact hoff.elim
  · rw [h.intr_off hcur hoff] at hintr
    exact nomatch hintr

theorem JoinInv.dispatch (h : JoinInv s) (hcur : s.cur = none) {u : T} (hrun : s.Runnable u) :
    ∃ s', joinStep s t (.dispatch u) = .ok s' ∧ JoinInv s' := by
  refine ⟨_, rfl, ?_⟩
  refine ⟨fun d => (h.own d).move ⟨.inl rfl, rfl, rfl, rfl⟩ (fun _ hp => hp) (t := d)
    (fun _ _ => rfl) (fun _ _ hκ => hκ) (fun _ hπ => hπ) (fun _ halone => halone), fun d hd => ?_,
    h.target, h.live, fun v hv => ?_, fun v hv => ?_⟩
  · have hfresh := h.fresh d hd
    exact ⟨hfresh.pc, hfresh.thread, hfresh.psem, hfresh.csem, hfresh.hist⟩
  · have hquiet := h.off v hv
    rw [Quiet, if_neg (by simp [hcur])] at hquiet
    rw [Quiet]
    split
    · next hv =>
      obtain rfl : u = v := Option.some.inj hv
      exact hquiet.1
    · exact hquiet
  · obtain rfl : u = v := Option.some.inj hv
    exact hrun

theorem JoinInv.named (h : JoinInv s) (hcur : s.cur = some t) (hfrom : s.pc t = .user)
    (hmade : (s.hist c).made = false) (hcur' : s'.cur = some t)
    (hpc : ∀ u, u ≠ c → s'.pc u = s.pc u) (hsaved : ∀ u, u ≠ c → s'.saved u = s.saved u)
    (hkept : ∀ d, d ≠ c → Kept s s' d) (hmade' : (s'.hist c).made = true)
    (hto : s'.pc c = .absent ∨ s'.pc c = .start ∧ (s'.thread c).isSome ∧ s'.saved c = false)
    (hown : Own s' c) : JoinInv s' := by
  have hfresh := h.fresh c hmade
  have hct : c ≠ t := by
    rintro rfl
    exact nomatch hfrom.symm.trans hfresh.pc
  have htgt : (s'.pc c).target = none := by
    rcases hto with hto | ⟨hto, -⟩ <;> rw [hto] <;> rfl
  have hpct : s'.pc t = .user := (hpc t hct.symm).trans hfrom
  refine ⟨fun d => ?_, fun d hd => ?_, fun u d hu => ?_, fun u hu => ?_, fun u hu => ?_,
    fun u hu => ?_⟩
  · by_cases hd : d = c
    · exact hd ▸ hown
    · refine (h.own d).move (hkept d hd) (fun p hp => ?_) hpc (fun he => absurd he hd)
        (fun π hπ => hπ.away ?_ ?_) (fun he => absurd he hd)
      · by_cases hpc : p = c
        · exact hpc ▸ hmade'
        · rwa [(hkept p hpc).hist]
      · rw [hfresh.pc]
        exact fun he => nomatch he
      · rw [htgt]
        exact fun he => nomatch he
  · have hdc : d ≠ c := by
      rintro rfl
      rw [hmade'] at hd
      exact nomatch hd
    have hold := h.fresh d ((hkept d hdc).hist ▸ hd)
    refine ⟨(hpc d hdc).trans hold.pc, ?_, (hkept d hdc).psem.trans hold.psem,
      (hkept d hdc).csem.trans hold.csem, (hkept d hdc).hist.trans hold.hist⟩
    rcases (hkept d hdc).thread with hsame | ⟨-, hnone⟩
    · exact hsame.trans hold.thread
    · exact hnone
  · have huc : u ≠ c := by
      rintro rfl
      rw [htgt] at hu
      exact nomatch hu
    have hpar := h.target u d (hpc u huc ▸ hu)
    have hdc : d ≠ c := by
      rintro rfl
      rw [hfresh.hist] at hpar
      exact nomatch hpar
    rwa [(hkept d hdc).hist]
  · by_cases huc : u = c
    · subst huc
      rcases hto with hto | ⟨-, hsome, -⟩
      · rw [hto] at hu
        exact hu.elim
      · exact hsome
    · rw [hpc u huc] at hu
      rcases (hkept u huc).thread with hsame | ⟨hz, -⟩
      · rw [hsame]
        exact h.live u hu
      · rw [hz] at hu
        exact hu.elim
  · have hne : s'.cur ≠ some u := by
      intro he
      obtain rfl : t = u := Option.some.inj (hcur'.symm.trans he)
      rw [hpct] at hu
      exact hu
    rw [Quiet, if_neg hne]
    by_cases huc : u = c
    · subst huc
      rcases hto with hto | ⟨hto, -, hsav⟩
      · rw [hto] at hu
        exact hu.elim
      · rw [hto]
        exact ⟨hsav, fun hbusy => hbusy⟩
    · rw [hpc u huc] at hu ⊢
      have hquiet := h.off u hu
      rwa [Quiet, if_neg (by rwa [hcur, ← hcur']), ← hsaved u huc] at hquiet
  · obtain rfl : t = u := Option.some.inj (hcur'.symm.trans hu)
    rw [JoinSys.Runnable, hpct]
    trivial

/-- What `thread_fork` has done when it returns an error. -/
structure ForkFailed (s s' : JoinSys T) (c : T) : Prop where
  pc : s'.pc = s.pc
  cur : s'.cur = s.cur
  saved : s'.saved = s.saved
  thread : s'.thread = s.thread
  sem : s'.sem = s.sem
  hist : s'.hist = Function.update s.hist c { s.hist c with made := true }

/-- What `thread_fork` has done when it succeeds. -/
structure Forked (s s' : JoinSys T) (t c : T) (joinable : Bool) : Prop where
  pc : s'.pc = Function.update s.pc c .start
  cur : s'.cur = s.cur
  saved : s'.saved = Function.update s.saved c false
  thread : s'.thread = Function.update s.thread c
    (some (if joinable then threadOf t c .running .idle else ⟨-1, none, none, none⟩))
  sem : s'.sem = if joinable then Function.update (Function.update s.sem (.csem c)
    (some (csemOf c .running false))) (.psem c) (some (psemOf t false .idle)) else s.sem
  hist : s'.hist = Function.update s.hist c
    { s.hist c with made := true, parent := if joinable then some t else none }

theorem forkJoin_cases (hfresh : Fresh s c) (t : T) (joinable : Bool) (e : ForkOutcome) :
    ∃ s', forkJoin s t c joinable e = .ok s' ∧ (ForkFailed s s' c ∨ Forked s s' t c joinable) := by
  have hthread : update s.thread c none = s.thread := by
    rw [← hfresh.thread, update_eq_self]
  have hcsem : update s.sem (.csem c) none = s.sem := by
    rw [← hfresh.csem, update_eq_self]
  have hpsem : update s.sem (.psem c) none = s.sem := by
    rw [← hfresh.psem, update_eq_self]
  obtain ⟨created, csem, psem, added⟩ := e
  cases created with
  | false => exact ⟨_, rfl, .inl ⟨rfl, rfl, rfl, rfl, rfl, rfl⟩⟩
  | true =>
    cases joinable with
    | false =>
      cases added with
      | false =>
        refine ⟨_, rfl, .inl ⟨rfl, rfl, rfl, ?_, rfl, rfl⟩⟩
        exact (update_idem ..).trans hthread
      | true =>
        refine ⟨_, rfl, .inr ⟨rfl, rfl, rfl, rfl, rfl, ?_⟩⟩
        simp [forkRunnable, JoinSys.note, JoinSys.goto, JoinSys.setThread]
    | true =>
      cases csem with
      | false =>
        refine ⟨_, rfl, .inl ⟨rfl, rfl, rfl, ?_, rfl, rfl⟩⟩
        exact (update_idem ..).trans hthread
      | true =>
        cases psem with
        | false =>
          refine ⟨_, by
            simp only [forkJoin, Bool.not_true, Bool.not_false, Bool.false_eq_true,
              if_false, if_true]
            rw [JoinSys.semaphoreDestroy_ok (update_self ..) rfl, ok_bind], ?_⟩
          refine .inl ⟨rfl, rfl, rfl, ?_, (update_idem ..).trans hcsem, rfl⟩
          simp only [JoinSys.setThread, JoinSys.setSem, JoinSys.semaphoreCreate, update_idem]
          exact hthread
        | true =>
          cases added with
          | false =>
            refine ⟨_, by
              simp only [forkJoin, Bool.not_true, Bool.false_eq_true, if_false]
              rw [JoinSys.semaphoreDestroy_ok (update_self ..) rfl, ok_bind,
                JoinSys.semaphoreDestroy_ok (update_self ..) rfl, ok_bind], ?_⟩
            refine .inl ⟨rfl, rfl, rfl, ?_, ?_, rfl⟩
            · simp only [JoinSys.setThread, JoinSys.setSem, JoinSys.semaphoreCreate,
                update_idem]
              exact hthread
            · have hne : (SemId.psem c : SemId T) ≠ .csem c := fun he => nomatch he
              simp only [JoinSys.setThread, JoinSys.setSem, JoinSys.semaphoreCreate, JoinSys.note,
                update_idem]
              rw [Function.update_comm hne, update_idem, hcsem, hpsem]
          | true =>
            refine ⟨_, rfl, .inr ⟨rfl, rfl, rfl, ?_, rfl, ?_⟩⟩
            · simp only [forkRunnable, JoinSys.note, JoinSys.goto, JoinSys.setThread,
                JoinSys.setSem, JoinSys.semaphoreCreate, update_idem]
              rfl
            · simp [forkRunnable, JoinSys.note, JoinSys.goto, JoinSys.setThread, JoinSys.setSem,
                JoinSys.semaphoreCreate]

theorem Own.failed (hfresh : Fresh s c) (h : ForkFailed s s' c) : Own s' c := by
  rw [Own, h.hist, update_self, hfresh.hist, h.thread, hfresh.thread, h.pc, hfresh.pc]
  exact ⟨fun th hth => (by cases hth), trivial⟩

theorem Own.forked (h : JoinInv s) (hcur : s.cur = some t) (hfrom : s.pc t = .user)
    (hfresh : Fresh s c) (hct : c ≠ t) {joinable : Bool} (hfork : Forked s s' t c joinable) :
    Own s' c := by
  have hpc : s'.pc c = .start := by rw [hfork.pc, update_self]
  have hthread := congrFun hfork.thread c
  have hsem := hfork.sem
  have hhist := congrFun hfork.hist c
  rw [update_self] at hthread hhist
  rw [hfresh.hist] at hhist
  rw [Own, hhist]
  cases joinable with
  | false =>
    refine ⟨fun th hth => ?_, by rw [hpc]; trivial⟩
    rw [hthread] at hth
    cases hth
    rfl
  | true =>
    refine ⟨hct, ?_, .running, .idle, ⟨fun he => (by cases he), by simp, by simp⟩, ?_, ?_, hhist,
      fun _ => hthread, ?_, ?_⟩
    · rw [hfork.hist, update_of_ne hct.symm]
      exact h.made hcur
    · rw [hpc]
      trivial
    · rw [hfork.pc, update_of_ne hct.symm, hfrom]
      exact fun he => by cases he
    · rw [hsem]
      exact update_self ..
    · rw [hsem]
      exact update_self ..

theorem JoinInv.fork (h : JoinInv s) (hcur : s.cur = some t) (hfrom : s.pc t = .user)
    (hmade : (s.hist c).made = false) (joinable : Bool) (e : ForkOutcome) :
    ∃ s', forkJoin s t c joinable e = .ok s' ∧ JoinInv s' := by
  have hfresh := h.fresh c hmade
  have hct : c ≠ t := by
    rintro rfl
    exact nomatch hfrom.symm.trans hfresh.pc
  obtain ⟨s', hrun, hfail | hfork⟩ := forkJoin_cases hfresh t joinable e
  · refine ⟨s', hrun, h.named hcur hfrom hmade (hfail.cur.trans hcur) (fun _ _ => by rw [hfail.pc])
      (fun _ _ => by rw [hfail.saved]) (fun d hd => ?_) ?_ ?_ (Own.failed hfresh hfail)⟩
    · refine ⟨.inl (by rw [hfail.thread]), by rw [hfail.sem], by rw [hfail.sem], ?_⟩
      rw [hfail.hist, update_of_ne hd]
    · rw [hfail.hist, update_self]
    · exact .inl (by rw [hfail.pc, hfresh.pc])
  · refine ⟨s', hrun, h.named hcur hfrom hmade (hfork.cur.trans hcur) (fun u hu => ?_)
      (fun u hu => ?_) (fun d hd => ?_) ?_ (.inr ⟨?_, ?_, ?_⟩)
      (Own.forked h hcur hfrom hfresh hct hfork)⟩
    · rw [hfork.pc, update_of_ne hu]
    · rw [hfork.saved, update_of_ne hu]
    · have hthread : s'.thread d = s.thread d := by rw [hfork.thread, update_of_ne hd]
      have hhist : s'.hist d = s.hist d := by rw [hfork.hist, update_of_ne hd]
      have hsem := hfork.sem
      cases joinable with
      | false => exact ⟨.inl hthread, by rw [hsem]; rfl, by rw [hsem]; rfl, hhist⟩
      | true =>
        refine ⟨.inl hthread, ?_, ?_, hhist⟩
        · rw [hsem]
          exact update_psem_ne (update s.sem (.csem c) _) _ hd
        · rw [hsem]
          exact update_csem_ne s.sem _ hd
    · rw [hfork.hist, update_self]
    · rw [hfork.pc, update_self]
    · rw [hfork.thread, update_self]
      rfl
    · rw [hfork.saved, update_self]

end

end JinxOS
