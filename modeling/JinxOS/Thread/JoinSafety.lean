import JinxOS.Thread.JoinSteps

/-!
# The rendezvous of parent and child

`JoinInv` holds in every reachable state, and every step that is allowed in such a state returns
(`JoinInv.step`).  `JoinInv.returns` follows a `thread_join` to its end, and `joinRun_protocol`
draws the conclusions.
-/

namespace JinxOS

open Function (update_self update_of_ne update)

variable {T : Type} [DecidableEq T]

/-! ## All runs -/

section
variable {s : JoinSys T}

theorem JoinInv.boot {boot : T} (h : JoinBoot s boot) : JoinInv s := by
  have hhist : ∀ c, (s.hist c).parent = none := by
    intro c
    rw [h.hist]
    by_cases hc : c = boot
    · rw [hc, update_self]
      rfl
    · rw [update_of_ne hc]
      rfl
  have hpc : ∀ c, c ≠ boot → s.pc c = .absent := by
    intro c hc
    rw [h.pc, update_of_ne hc]
  have hboot : s.pc boot = .user := by rw [h.pc, update_self]
  have hthread : ∀ c, c ≠ boot → s.thread c = none := by
    intro c hc
    rw [h.thread, update_of_ne hc]
  have hbootThread : s.thread boot = some ⟨-1, none, none, none⟩ := by
    rw [h.thread, update_self]
  refine ⟨fun c => ?_, fun c hmade => ?_, fun t c ht => ?_, fun t ht => ?_, fun t ht => ?_,
    fun t ht => ?_⟩
  · rw [Own, hhist c]
    by_cases hc : c = boot
    · subst hc
      rw [hboot, hbootThread]
      exact ⟨fun th hth => by cases hth; rfl, trivial⟩
    · rw [hpc c hc, hthread c hc]
      exact ⟨fun th hth => (by cases hth), trivial⟩
  · have hc : c ≠ boot := by
      rintro rfl
      rw [h.hist, update_self] at hmade
      cases hmade
    exact ⟨hpc c hc, hthread c hc, by rw [h.sem], by rw [h.sem],
      by rw [h.hist, update_of_ne hc]⟩
  · by_cases hc : t = boot
    · rw [hc, hboot] at ht
      cases ht
    · rw [hpc t hc] at ht
      cases ht
  · by_cases hc : t = boot
    · rw [hc, hbootThread]
      rfl
    · rw [hpc t hc] at ht
      exact ht.elim
  · by_cases hc : t = boot
    · rw [hc, hboot] at ht
      exact ht.elim
    · rw [hpc t hc] at ht
      exact ht.elim
  · obtain rfl : boot = t := Option.some.inj (h.cur.symm.trans ht)
    rw [JoinSys.Runnable, hboot]
    trivial

theorem JoinInv.go {t : T} (h : JoinInv s) (hcur : s.cur = some t) :
    ∃ s', joinGo s t = .ok s' ∧ JoinInv s' := by
  rw [joinGo]
  cases hpc : s.pc t with
  | start => exact ⟨_, rfl, h.start hcur hpc⟩
  | joinEntered c => exact h.joinCheck hcur hpc
  | joinOff c on =>
    obtain ⟨-, κ, -, -, hthread, -⟩ := h.joining hpc rfl
    dsimp only
    rw [JoinSys.getThread_some hthread, ok_bind, threadOf, deref_some, ok_bind]
    exact h.joinOff hcur hpc
  | joinAsleep c on id => exact h.joinAsleep hcur hpc
  | joinDown c on => exact h.joinSignal hcur hpc
  | joinUp c on => exact h.joinRead hcur hpc
  | joinRead c on => exact h.joinReturn hcur hpc
  | exitUp => exact h.exitSignal hcur hpc
  | exitOff =>
    obtain ⟨p, -, v, π, hpair⟩ := h.exiting hpc fun hf => hf
    rw [JoinSys.getThread_some (hpair.thread rfl), ok_bind, threadOf, deref_some, ok_bind]
    exact h.exitOff hcur hpc
  | exitAsleep id => exact h.exitAsleep hcur hpc
  | exitDown => exact h.exitDestroy hcur hpc
  | exitEnd => exact h.exitSwitch hcur hpc
  | absent | user | zombie => exact ⟨s, rfl, h⟩

/-- **Every step that is allowed returns, and keeps the invariant.** -/
theorem JoinInv.step {t : T} {op : JoinOp T} (h : JoinInv s) (hop : op.Allowed s t) :
    ∃ s', joinStep s t op = .ok s' ∧ JoinInv s' := by
  cases op with
  | fork c joinable e => exact h.fork hop.1 hop.2.1 hop.2.2 joinable e
  | join c => exact h.joinEnter hop.1 hop.2.1 hop.2.2.1 hop.2.2.2
  | exit ret => exact h.exitEnter hop.1 hop.2 ret
  | go => exact h.go hop.1
  | yield => exact h.yield hop.1 hop.2
  | dispatch u => exact h.dispatch hop.1 hop.2

theorem JoinRun.inv {tr : List (JoinSys T × (T × JoinOp T))} (h : JoinRun tr s) : JoinInv s := by
  refine Run.invariant (fun s hs => ?_) (fun s a s' hinv hstep => ?_) h
  · obtain ⟨boot, hboot⟩ := hs
    exact JoinInv.boot hboot
  · obtain ⟨s'', hrun, hinv'⟩ := hinv.step hstep.1
    rw [hstep.2] at hrun
    cases hrun
    exact hinv'

end

/-! ## Progress -/

section
variable {s s' : JoinSys T} {t c : T} {on again : Bool} {v : Int}

/-- The next steps of the thread `t` alone take it out of `thread_join(c)`, with the value `v`. -/
def Returns (s : JoinSys T) (t c : T) (v : Int) : Prop :=
  ∃ tr s', Run (fun x => x = s) JoinStep tr s' ∧ (∀ e ∈ tr, e.2 = (t, .go)) ∧
    s'.pc t = .user ∧ (s'.hist c).returned = some v

theorem Returns.cons {q : JoinPc T} (hcur : s.cur = some t) (hfrom : s.pc t = q) (hcall : q.InCall)
    (hgo : joinGo s t = .ok s') (h : Returns s' t c v) : Returns s t c v := by
  subst hfrom
  obtain ⟨tr, s'', hrun, hgos, hpc, hret⟩ := h
  have hstep : JoinStep s (t, .go) s' := ⟨⟨hcur, hcall⟩, hgo⟩
  refine ⟨_, s'', hrun.head hstep, fun e he => ?_, hpc, hret⟩
  rcases List.mem_append.1 he with he | he
  · exact hgos e he
  · rw [List.mem_singleton.1 he]

/-- A step in `thread_join` has taken the thread to another point. -/
structure Went (s s' : JoinSys T) (t c : T) (q : JoinPc T) : Prop where
  cur : s'.cur = s.cur
  pc : s'.pc t = q
  other : ∀ u, u ≠ t → s'.pc u = s.pc u
  passed : (s'.hist c).passed = (s.hist c).passed

theorem joinCheck_went (hct : c ≠ t) (h : joinCheck s t c = .ok s') :
    Went s s' t c (.joinOff c s.cpu.intr) := by
  simp only [joinCheck, cli, if_neg hct] at h
  obtain ⟨th, -, h⟩ := of_bind h
  obtain ⟨_, -, h⟩ := of_bind h
  cases h
  exact ⟨rfl, update_self .., fun _ hu => update_of_ne hu .., rfl⟩

theorem joinWait_went {sem sem' : Semaphore T} (hsem : s.sem (.psem c) = some sem)
    (hsec : semaphoreSection sem t again = .ok (true, sem'))
    (h : joinWait s t c on (.psem c) again = .ok s') : Went s s' t c (.joinDown c on) := by
  rw [joinWait, JoinSys.p_taken hsem hsec, ok_bind] at h
  cases h
  refine ⟨rfl, update_self .., fun _ hu => update_of_ne hu .., ?_⟩
  simp [JoinSys.note, JoinSys.goto, JoinSys.setSem]

theorem joinSignal_went (h : joinSignal s t c on = .ok s') : Went s s' t c (.joinUp c on) := by
  obtain ⟨th, -, h⟩ := of_bind h
  obtain ⟨id, -, h⟩ := of_bind h
  obtain ⟨s1, hv, h⟩ := of_bind h
  obtain ⟨sem, -, hv⟩ := of_bind hv
  obtain ⟨sem', -, hv⟩ := of_bind hv
  cases hv
  cases h
  refine ⟨rfl, update_self .., fun _ hu => update_of_ne hu .., ?_⟩
  simp [JoinSys.note, JoinSys.goto, JoinSys.setSem]

theorem joinRead_went (h : joinRead s t c on = .ok s') : Went s s' t c (.joinRead c on) := by
  obtain ⟨th, -, h⟩ := of_bind h
  cases h
  refine ⟨rfl, update_self .., fun _ hu => update_of_ne hu .., ?_⟩
  simp [JoinSys.note, JoinSys.goto]

theorem joinReturn_went (h : joinReturn s t c on = .ok s') :
    s'.pc t = .user ∧ s'.hist = s.hist := by
  obtain ⟨th, -, h⟩ := of_bind h
  cases h
  exact ⟨update_self .., rfl⟩

omit [DecidableEq T] in
/-- A child that has called `thread_exit` and is past `V(psem)` has raised it. -/
theorem Pair.hasRaised {p : T} {κ : ChildPhase} {π : ParentPhase} (h : Pair s p c κ π)
    (hpassed : (s.hist c).passed = some v) (hup : s.pc c ≠ .exitUp) : κ.hasRaised = true := by
  rw [h.hist] at hpassed
  cases κ with
  | running => exact nomatch hpassed
  | exiting w => exact absurd h.child hup
  | _ => rfl

section
variable (h : JoinInv s) (hcur : s.cur = some t) (hpassed : (s.hist c).passed = some v)
include h hcur hpassed

theorem JoinInv.returns_read (hfrom : s.pc t = .joinRead c on) : Returns s t c v := by
  obtain ⟨-, κ, hpair, -⟩ := h.joining hfrom rfl
  obtain ⟨s', hrun, -⟩ := h.joinReturn hcur hfrom
  obtain ⟨hpc, hhist⟩ := joinReturn_went hrun
  have hgo : joinGo s t = .ok s' := by rw [joinGo, hfrom, ← hrun]
  refine .cons hcur hfrom trivial hgo ⟨[], s', .init rfl, by simp, hpc, ?_⟩
  rw [hhist]
  rw [hpair.hist] at hpassed ⊢
  exact hpassed

theorem JoinInv.returns_up (hfrom : s.pc t = .joinUp c on) : Returns s t c v := by
  obtain ⟨s', hrun, hinv⟩ := h.joinRead hcur hfrom
  have hwent := joinRead_went hrun
  have hgo : joinGo s t = .ok s' := by rw [joinGo, hfrom, ← hrun]
  exact .cons hcur hfrom trivial hgo
    (hinv.returns_read (hwent.cur.trans hcur) (hwent.passed.trans hpassed) hwent.pc)

theorem JoinInv.returns_down (hfrom : s.pc t = .joinDown c on) : Returns s t c v := by
  obtain ⟨s', hrun, hinv⟩ := h.joinSignal hcur hfrom
  have hwent := joinSignal_went hrun
  have hgo : joinGo s t = .ok s' := by rw [joinGo, hfrom, ← hrun]
  exact .cons hcur hfrom trivial hgo
    (hinv.returns_up (hwent.cur.trans hcur) (hwent.passed.trans hpassed) hwent.pc)

variable (hup : s.pc c ≠ .exitUp)
include hup

/-- A child that has raised `psem`, while its parent is the current thread. -/
theorem JoinInv.returns_off (hfrom : s.pc t = .joinOff c on) : Returns s t c v := by
  obtain ⟨-, κ, hpair, -, hthread, hpsem, -⟩ := h.joining hfrom rfl
  have hraised := hpair.hasRaised hpassed hup
  obtain ⟨s', hrun, hinv⟩ := h.joinOff hcur hfrom
  rw [hraised] at hpsem
  have hwent := joinWait_went hpsem (semaphoreP_psem t) hrun
  have hgo : joinGo s t = .ok s' := by
    rw [joinGo, hfrom]
    dsimp only
    rw [JoinSys.getThread_some hthread, ok_bind, threadOf, deref_some, ok_bind, hrun]
  exact .cons hcur hfrom trivial hgo
    (hinv.returns_down (hwent.cur.trans hcur) (hwent.passed.trans hpassed) hwent.pc)

theorem JoinInv.returns_asleep {id : SemId T} (hfrom : s.pc t = .joinAsleep c on id) :
    Returns s t c v := by
  obtain ⟨-, κ, hpair, -, -, hpsem, -⟩ := h.joining hfrom rfl
  have hraised := hpair.hasRaised hpassed hup
  obtain ⟨s', hrun, hinv⟩ := h.joinAsleep hcur hfrom
  have hgo : joinGo s t = .ok s' := by rw [joinGo, hfrom, ← hrun]
  obtain rfl : id = .psem c := by
    obtain ⟨on', hat⟩ := hpair.parent
    rw [hfrom] at hat
    exact (JoinPc.joinAsleep.inj hat).2.2
  rw [hraised] at hpsem
  have hwent := joinWait_went hpsem (semaphorePAgain_psem t) hrun
  exact .cons hcur hfrom trivial hgo
    (hinv.returns_down (hwent.cur.trans hcur) (hwent.passed.trans hpassed) hwent.pc)

theorem JoinInv.returns_entered (hfrom : s.pc t = .joinEntered c) : Returns s t c v := by
  obtain ⟨hct, -⟩ := h.joining hfrom rfl
  obtain ⟨s', hrun, hinv⟩ := h.joinCheck hcur hfrom
  have hwent := joinCheck_went hct hrun
  have hgo : joinGo s t = .ok s' := by rw [joinGo, hfrom, ← hrun]
  refine .cons hcur hfrom trivial hgo
    (hinv.returns_off (hwent.cur.trans hcur) (hwent.passed.trans hpassed) ?_ hwent.pc)
  rwa [hwent.other c hct]

/-- **A parent that has the CPU returns from `thread_join`** with the value of the child, once the
child has raised `psem`. -/
theorem JoinInv.returns (htgt : (s.pc t).target = some c) : Returns s t c v := by
  cases hpc : s.pc t <;> rw [hpc] at htgt <;> cases htgt
  case joinEntered => exact h.returns_entered hcur hpassed hup hpc
  case joinOff => exact h.returns_off hcur hpassed hup hpc
  case joinAsleep => exact h.returns_asleep hcur hpassed hup hpc
  case joinDown => exact h.returns_down hcur hpassed hpc
  case joinUp => exact h.returns_up hcur hpassed hpc
  case joinRead => exact h.returns_read hcur hpassed hpc

end

/-- A parent in `thread_join` can run, once the child has raised `psem`. -/
theorem JoinInv.runnable (h : JoinInv s) (htgt : (s.pc t).target = some c)
    (hpassed : (s.hist c).passed = some v) (hup : s.pc c ≠ .exitUp) : s.Runnable t := by
  obtain ⟨-, κ, hpair, -, -, hpsem, -⟩ := h.joining rfl htgt
  have hraised := hpair.hasRaised hpassed hup
  rw [JoinSys.Runnable]
  cases hpc : s.pc t with
  | joinAsleep d on id =>
    rw [hpc] at hpair hpsem
    obtain ⟨on', hat⟩ := hpair.parent
    rw [hpc] at hat
    obtain ⟨rfl, -, rfl⟩ := JoinPc.joinAsleep.inj hat
    simp [JoinSys.Woken, hpsem, psemOf, hraised, JoinPc.joinPhase]
  | absent | zombie | exitAsleep id => simp [hpc, JoinPc.target] at htgt
  | _ => trivial

end

/-! ## The protocol -/

section
variable {s : JoinSys T}

omit [DecidableEq T] in
theorem Pair.returned {p c : T} {κ : ChildPhase} {π : ParentPhase} (h : Pair s p c κ π) {v : Int}
    (hret : (s.hist c).returned = some v) : (s.hist c).passed = some v := by
  rw [h.hist] at hret ⊢
  cases hread : π.hasRead with
  | false => simp [histOf, hread] at hret
  | true => simpa [histOf, hread] using hret

omit [DecidableEq T] in
theorem Pair.destroyed {p c : T} {κ : ChildPhase} {π : ParentPhase} (h : Pair s p c κ π)
    (hgone : s.sem (.psem c) = none ∨ s.sem (.csem c) = none ∨ s.pc c = .zombie ∨
      s.thread c = none) : (s.hist c).collected = true ∧ (s.hist c).released = true := by
  have hover : κ.over = true := by
    by_contra hover
    have hover : κ.over = false := by simpa using hover
    rcases hgone with hpsem | hcsem | hz | hth
    · simp [h.psem, hover] at hpsem
    · simp [h.csem, hover] at hcsem
    · have hat := h.child
      rw [hz] at hat
      cases κ with
      | ended v => exact nomatch hover
      | running => exact absurd rfl hat
      | _ => exact nomatch hat
    · simp [h.thread hover] at hth
  cases κ with
  | ended v =>
    rw [h.hist, h.fits.done v (.inr rfl)]
    exact ⟨rfl, rfl⟩
  | _ => exact nomatch hover

/-- **The join protocol**, in every reachable state of every schedule.  For every joinable thread
and its parent, what a `thread_join` has stored is the value passed to `thread_exit`; the semaphores
are destroyed and the thread is a zombie only after `P(psem)` and `V(csem)` of the parent; and once
the child has raised `psem`, a parent in `thread_join` can run, and its own steps lead out of the
call with the child's value.  And no step that a thread can take runs into an object that has been
destroyed, or into a failed assertion. -/
theorem joinRun_protocol {tr : List (JoinSys T × (T × JoinOp T))} (h : JoinRun tr s) :
    (∀ p c, (s.hist c).parent = some p →
      (∀ v, (s.hist c).returned = some v → (s.hist c).passed = some v) ∧
      (s.sem (.psem c) = none ∨ s.sem (.csem c) = none ∨ s.pc c = .zombie ∨ s.thread c = none →
        (s.hist c).collected = true ∧ (s.hist c).released = true) ∧
      (∀ v, (s.pc p).target = some c → (s.hist c).passed = some v → s.pc c ≠ .exitUp →
        s.Runnable p ∧ (s.cur = some p → Returns s p c v))) ∧
    ∀ t op, op.Allowed s t → ∃ s', joinStep s t op = .ok s' := by
  have hinv := h.inv
  refine ⟨fun p c hpar => ?_, fun t op hop => ?_⟩
  · have hown := hinv.own c
    rw [Own, hpar] at hown
    obtain ⟨-, -, κ, π, hpair⟩ := hown
    exact ⟨fun v => hpair.returned, hpair.destroyed, fun v htgt hpassed hup =>
      ⟨hinv.runnable htgt hpassed hup, fun hcur => hinv.returns hcur hpassed hup htgt⟩⟩
  · obtain ⟨s', hrun, -⟩ := hinv.step hop
    exact ⟨s', hrun⟩

/-- The state after a step. -/
def joinNext (s : JoinSys T) (t : T) (op : JoinOp T) : JoinSys T := (joinStep s t op).okD s

theorem JoinRun.next {tr : List (JoinSys T × (T × JoinOp T))} (h : JoinRun tr s) (t : T)
    (op : JoinOp T) (hop : op.Allowed s t) : JoinRun ((s, (t, op)) :: tr) (joinNext s t op) := by
  obtain ⟨s', hrun, -⟩ := h.inv.step hop
  have hnext : joinNext s t op = s' := by rw [joinNext, hrun, Except.okD]
  exact .step h ⟨hop, hnext ▸ hrun⟩

/-- The boot thread `false`, with interrupts off. -/
def joinBoot : JoinSys Bool where
  cur := some false
  cpu := ⟨false, false, some 0, 0⟩
  saved := fun _ => false
  thread := update (fun _ => none) false (some ⟨-1, none, none, none⟩)
  sem := fun _ => none
  pc := update (fun _ => .absent) false .user
  hist := update (fun _ => .none) false { JoinHist.none with made := true }

/-- The parent goes to sleep in `thread_join`, the child exits with 7 and goes to sleep in turn, and
the parent, when it runs again, returns with 7. -/
theorem joinRun_protocol_one :
    ∃ (tr : List (JoinSys Bool × (Bool × JoinOp Bool))) (s : JoinSys Bool),
    JoinRun tr s ∧ s.pc false = .joinAsleep true false (.psem true) ∧
      s.pc true = .exitAsleep (.csem true) ∧ s.cur = some false ∧ Returns s false true 7 := by
  have hboot : JoinRun [] joinBoot := Run.init ⟨false, rfl, rfl, rfl, rfl, rfl⟩
  have hforked := hboot.next false (.fork true true ⟨true, true, true, true⟩) ⟨rfl, rfl, rfl⟩
  have hjoin := hforked.next false (.join true) ⟨rfl, rfl, rfl, rfl⟩
  have hasleep := (hjoin.next false .go ⟨rfl, trivial⟩).next false .go ⟨rfl, trivial⟩
  have hstart := (hasleep.next false (.dispatch true) ⟨rfl, trivial⟩).next true .go ⟨rfl, trivial⟩
  have hexit := hstart.next true (.exit 7) ⟨rfl, rfl⟩
  have hraised := (hexit.next true .go ⟨rfl, trivial⟩).next true .go ⟨rfl, trivial⟩
  have hback := hraised.next true (.dispatch false) ⟨rfl, List.mem_cons_self⟩
  have hprotocol := (joinRun_protocol hback).1 false true rfl
  exact ⟨_, _, hback, rfl, rfl, rfl, (hprotocol.2.2 7 rfl rfl (fun he => nomatch he)).2 rfl⟩

end

end JinxOS
