import JinxOS.Thread.Join

/-!
# The phases of a rendezvous

The abstract protocol: parent and child each go through a fixed sequence of phases (`ParentPhase`,
`ChildPhase`), some combinations of which cannot occur (`Fits`).  The two semaphores, the child's
thread structure and the history are functions of the two phases, and a state implements the
protocol for a parent and a child when it has these values (`Pair`).

Which combinations occur is decided by the interrupt flag: a thread that has interrupts disabled and
is not asleep is the current thread (`JoinInv.off`), so while the parent is between its `V(csem)`
and its last access to the child, the child is still asleep.

`JoinInv` is the invariant.  A step of the current thread is either one that has nothing to do with
the protocol (`JoinInv.own_step`), or takes a parent (`JoinInv.parent_step`) or a child
(`JoinInv.child_step`) from one phase to another.
-/

namespace JinxOS

open Function (update update_self update_of_ne)

variable {T : Type} [DecidableEq T]

/-! ## The protocol -/

/-- How far a joinable thread has come, and the value that it has passed to `thread_exit`. -/
inductive ChildPhase
  /-- It has not called `thread_exit`. -/
  | running
  /-- It is about to raise `psem`. -/
  | exiting (v : Int)
  /-- It has raised `psem`. -/
  | raised (v : Int)
  /-- It is asleep on `csem`. -/
  | asleep (v : Int)
  /-- It has lowered `csem`. -/
  | lowered (v : Int)
  /-- It has destroyed the semaphores. -/
  | ended (v : Int)

/-- How far a parent has come with a child. -/
inductive ParentPhase
  /-- It has not called `thread_join`. -/
  | idle
  /-- It is about to lower `psem`. -/
  | asking
  /-- It is asleep on `psem`. -/
  | asleep
  /-- It has lowered `psem`. -/
  | down
  /-- It has raised `csem`. -/
  | up
  /-- It has read the return value. -/
  | read
  /-- `thread_join` has returned. -/
  | done
  deriving DecidableEq

/-- The value passed to `thread_exit`. -/
def ChildPhase.value : ChildPhase → Option Int
  | .running => none
  | .exiting v => some v
  | .raised v => some v
  | .asleep v => some v
  | .lowered v => some v
  | .ended v => some v

/-- `psem` has been raised. -/
def ChildPhase.hasRaised : ChildPhase → Bool
  | .running => false
  | .exiting _ => false
  | _ => true

/-- `thread_join` has been called. -/
def ParentPhase.called (π : ParentPhase) : Bool := π != .idle

/-- `psem` has been lowered. -/
def ParentPhase.collected : ParentPhase → Bool
  | .down => true
  | .up => true
  | .read => true
  | .done => true
  | _ => false

/-- `csem` has been raised. -/
def ParentPhase.released : ParentPhase → Bool
  | .up => true
  | .read => true
  | .done => true
  | _ => false

/-- The return value has been read. -/
def ParentPhase.hasRead : ParentPhase → Bool
  | .read => true
  | .done => true
  | _ => false

/-- The combinations of phases that occur. -/
structure Fits (κ : ChildPhase) (π : ParentPhase) : Prop where
  /-- The parent lowers `psem` after the child has raised it. -/
  raised : π.collected = true → κ.hasRaised = true
  done : ∀ v, κ = .lowered v ∨ κ = .ended v → π = .done
  asleep : π = .up ∨ π = .read → ∃ v, κ = .asleep v

/-- `psem`. -/
def psemOf (p : T) (raised : Bool) (π : ParentPhase) : Semaphore T where
  count := if raised && !π.collected then 1 else 0
  wchan := if π = .asleep then (if raised then ⟨[], [p]⟩ else ⟨[p], []⟩) else .empty

/-- `csem`. -/
def csemOf (c : T) (κ : ChildPhase) (released : Bool) : Semaphore T :=
  match κ with
  | .asleep _ => if released then ⟨1, ⟨[], [c]⟩⟩ else ⟨0, ⟨[c], []⟩⟩
  | .lowered _ => ⟨0, .empty⟩
  | _ => ⟨if released then 1 else 0, .empty⟩

/-- The child's thread structure. -/
def threadOf (p c : T) (κ : ChildPhase) (π : ParentPhase) : JoinThread T where
  rval := κ.value.getD (-1)
  parent := if π = .done then none else some p
  psem := some (.psem c)
  csem := some (.csem c)

/-- The history of the child. -/
def histOf (p : T) (κ : ChildPhase) (π : ParentPhase) : JoinHist T where
  made := true
  parent := some p
  called := π.called
  collected := π.collected
  released := π.released
  passed := κ.value
  returned := if π.hasRead then κ.value else none

section
variable (p c : T) (v : Int) {π : ParentPhase}

omit [DecidableEq T] in
theorem semaphoreTry_one (t : T) :
    semaphoreTry (⟨1, .empty⟩ : Semaphore T) t = .ok (true, ⟨0, .empty⟩) :=
  semaphoreTry_pos Nat.one_pos (by decide : 1 < 2 ^ 32)

omit [DecidableEq T] in
theorem semaphoreV_psem (h : π.collected = false) :
    semaphoreV (psemOf p false π) = .ok (psemOf p true π) := by
  cases π <;> first | rfl | simp [ParentPhase.collected] at h

theorem semaphoreP_psem_early :
    semaphoreSection (psemOf p false .asking) p false = .ok (false, psemOf p false .asleep) := rfl

theorem semaphoreP_psem :
    semaphoreSection (psemOf p true .asking) p false = .ok (true, psemOf p true .down) :=
  semaphoreTry_one p

theorem semaphorePAgain_psem :
    semaphoreSection (psemOf p true .asleep) p true = .ok (true, psemOf p true .down) := by
  have hresume : (⟨[], [p]⟩ : WaitQueue T).resume p = .empty := by
    simp [WaitQueue.resume, WaitQueue.empty]
  exact (congrArg (fun q => semaphoreTry ⟨1, q⟩ p) hresume).trans (semaphoreTry_one p)

omit [DecidableEq T] in
theorem semaphoreV_csem :
    semaphoreV (csemOf c (.asleep v) false) = .ok (csemOf c (.asleep v) true) := rfl

theorem semaphoreP_csem_early : semaphoreSection (csemOf c (.raised v) false) c false =
    .ok (false, csemOf c (.asleep v) false) := rfl

theorem semaphoreP_csem : semaphoreSection (csemOf c (.raised v) true) c false =
    .ok (true, csemOf c (.lowered v) true) :=
  semaphoreTry_one c

theorem semaphorePAgain_csem : semaphoreSection (csemOf c (.asleep v) true) c true =
    .ok (true, csemOf c (.lowered v) true) := by
  have hresume : (⟨[], [c]⟩ : WaitQueue T).resume c = .empty := by
    simp [WaitQueue.resume, WaitQueue.empty]
  exact (congrArg (fun q => semaphoreTry ⟨1, q⟩ c) hresume).trans (semaphoreTry_one c)

end

/-! ## Where threads are in the protocol -/

/-- The child that a thread is joining. -/
def JoinPc.target : JoinPc T → Option T
  | .joinEntered c => some c
  | .joinOff c _ => some c
  | .joinAsleep c _ _ => some c
  | .joinDown c _ => some c
  | .joinUp c _ => some c
  | .joinRead c _ => some c
  | _ => none

/-- How far the thread has come with that child. -/
def JoinPc.joinPhase : JoinPc T → ParentPhase
  | .joinEntered _ => .asking
  | .joinOff _ _ => .asking
  | .joinAsleep _ _ _ => .asleep
  | .joinDown _ _ => .down
  | .joinUp _ _ => .up
  | .joinRead _ _ => .read
  | _ => .idle

/-- The thread exists, and has not called `thread_exit`. -/
def JoinPc.Running : JoinPc T → Prop
  | .start => True
  | .user => True
  | p => p.target ≠ none

/-- The thread exists. -/
def JoinPc.Present : JoinPc T → Prop
  | .absent => False
  | .zombie => False
  | _ => True

/-- A thread that is not joinable can be here. -/
def JoinPc.Alone : JoinPc T → Prop
  | .exitUp => False
  | .exitOff => False
  | .exitAsleep _ => False
  | .exitDown => False
  | _ => True

/-- The thread runs with interrupts disabled. -/
def JoinPc.Busy : JoinPc T → Prop
  | .joinOff _ _ => True
  | .joinDown _ _ => True
  | .joinUp _ _ => True
  | .joinRead _ _ => True
  | .exitUp => True
  | .exitOff => True
  | .exitDown => True
  | .exitEnd => True
  | _ => False

/-- The thread runs with interrupts disabled when it runs. -/
def JoinPc.Off : JoinPc T → Prop
  | .start => True
  | .joinAsleep _ _ _ => True
  | .exitAsleep _ => True
  | p => p.Busy

/-- The points of a child in a phase. -/
def ChildPhase.At (c : T) (p : JoinPc T) : ChildPhase → Prop
  | .running => p.Running
  | .exiting _ => p = .exitUp
  | .raised _ => p = .exitOff
  | .asleep _ => p = .exitAsleep (.csem c)
  | .lowered _ => p = .exitDown
  | .ended _ => p = .exitEnd ∨ p = .zombie

/-- The points of a parent in a phase. -/
def ParentPhase.At (c : T) (p : JoinPc T) : ParentPhase → Prop
  | .idle => p.target ≠ some c
  | .asking => p = .joinEntered c ∨ ∃ on, p = .joinOff c on
  | .asleep => ∃ on, p = .joinAsleep c on (.psem c)
  | .down => ∃ on, p = .joinDown c on
  | .up => ∃ on, p = .joinUp c on
  | .read => ∃ on, p = .joinRead c on
  | .done => p.target ≠ some c

/-- The child has destroyed its semaphores. -/
def ChildPhase.over : ChildPhase → Bool
  | .ended _ => true
  | _ => false

/-- The state implements the protocol for the parent `p` and the child `c`. -/
structure Pair (s : JoinSys T) (p c : T) (κ : ChildPhase) (π : ParentPhase) : Prop where
  fits : Fits κ π
  child : κ.At c (s.pc c)
  parent : π.At c (s.pc p)
  hist : s.hist c = histOf p κ π
  thread : κ.over = false → s.thread c = some (threadOf p c κ π)
  psem : s.sem (.psem c) = if κ.over then none else some (psemOf p κ.hasRaised π)
  csem : s.sem (.csem c) = if κ.over then none else some (csemOf c κ π.released)

/-- What is known of a thread: a joinable one follows the protocol with its parent. -/
def Own (s : JoinSys T) (c : T) : Prop :=
  match (s.hist c).parent with
  | some p => c ≠ p ∧ (s.hist p).made = true ∧ ∃ κ π, Pair s p c κ π
  | none => (∀ th, s.thread c = some th → th.parent = none) ∧ (s.pc c).Alone

/-- There has never been a thread of this name. -/
structure Fresh (s : JoinSys T) (c : T) : Prop where
  pc : s.pc c = .absent
  thread : s.thread c = none
  psem : s.sem (.psem c) = none
  csem : s.sem (.csem c) = none
  hist : s.hist c = .none

/-- A thread that has interrupts disabled is the current one, or has gone off the CPU by itself. -/
def Quiet (s : JoinSys T) (t : T) : Prop :=
  if s.cur = some t then s.cpu.intr = false else s.saved t = false ∧ ¬ (s.pc t).Busy

/-- The invariant of all runs. -/
structure JoinInv (s : JoinSys T) : Prop where
  own : ∀ c, Own s c
  fresh : ∀ c, (s.hist c).made = false → Fresh s c
  target : ∀ t c, (s.pc t).target = some c → (s.hist c).parent = some t
  live : ∀ t, (s.pc t).Present → (s.thread t).isSome
  off : ∀ t, (s.pc t).Off → Quiet s t
  cur : ∀ t, s.cur = some t → s.Runnable t

/-- A step leaves the objects of a thread alone, or the thread was a zombie and has been destroyed.
-/
structure Kept (s s' : JoinSys T) (c : T) : Prop where
  thread : s'.thread c = s.thread c ∨ s.pc c = .zombie ∧ s'.thread c = none
  psem : s'.sem (.psem c) = s.sem (.psem c)
  csem : s'.sem (.csem c) = s.sem (.csem c)
  hist : s'.hist c = s.hist c

/-- The thread that has taken a step goes on, or has gone off the CPU. -/
def Stays (s : JoinSys T) (t : T) : Prop :=
  (s.cur = some t ∧ ((s.pc t).Off → s.cpu.intr = false) ∧ s.Runnable t) ∨
    (s.cur = none ∧ ((s.pc t).Off → s.saved t = false ∧ ¬ (s.pc t).Busy))

/-- The thread `t` has gone to `q`, and the others are where they were. -/
structure Moved (s s' : JoinSys T) (t : T) (q : JoinPc T) : Prop where
  there : s'.pc t = q
  pc : ∀ u, u ≠ t → s'.pc u = s.pc u
  saved : ∀ u, u ≠ t → s'.saved u = s.saved u
  stays : Stays s' t

/-- The thread is in its own code, or joins `c`. -/
def JoinPc.Joins (c : T) (q : JoinPc T) : Prop := q = .user ∨ q.target = some c

/-- How far a thread has come with `thread_exit`, if it waits for its parent there. -/
def JoinPc.exitPhase (v : Int) : JoinPc T → ChildPhase
  | .exitUp => .exiting v
  | .exitOff => .raised v
  | .exitAsleep _ => .asleep v
  | .exitDown => .lowered v
  | _ => .running

/-- The thread is not asleep. -/
def JoinPc.Awake : JoinPc T → Prop
  | .joinAsleep _ _ _ => False
  | .exitAsleep _ => False
  | p => p.Present

variable {s s' : JoinSys T} {p c t : T} {κ : ChildPhase} {π : ParentPhase} {q q' : JoinPc T}

section

omit [DecidableEq T]

theorem ParentPhase.At.eq_joinPhase (h : π.At c q) (ht : q.target = some c) : π = q.joinPhase := by
  cases π with
  | idle => exact absurd ht h
  | done => exact absurd ht h
  | asking => rcases h with rfl | ⟨on, rfl⟩ <;> rfl
  | asleep | down | up | read => obtain ⟨on, rfl⟩ := h; rfl

/-- A thread that has nothing to do with a child before and after a step. -/
theorem ParentPhase.At.away (h : π.At c q) (hq : q.target ≠ some c) (hq' : q'.target ≠ some c) :
    π.At c q' := by
  cases π with
  | idle => exact hq'
  | done => exact hq'
  | asking => rcases h with rfl | ⟨on, rfl⟩ <;> exact absurd rfl hq
  | asleep | down | up | read => obtain ⟨on, rfl⟩ := h; exact absurd rfl hq

/-- A thread that has not called `thread_exit` before and after a step. -/
theorem ChildPhase.At.running (h : κ.At c q) (hq : q.Running) (hq' : q'.Running) : κ.At c q' := by
  cases κ with
  | running => exact hq'
  | ended v => rcases h with rfl | rfl <;> exact absurd rfl hq
  | exiting v | raised v | asleep v | lowered v => rw [show q = _ from h] at hq; exact absurd rfl hq

theorem JoinPc.Running.alone (h : q.Running) : q.Alone := by
  cases q <;> trivial

theorem ChildPhase.At.eq_exitPhase (h : κ.At c q) (hq : ¬ q.Alone) : ∃ v, κ = q.exitPhase v := by
  cases κ with
  | running => exact absurd (JoinPc.Running.alone h) hq
  | exiting v | raised v | asleep v | lowered v => exact ⟨v, by rw [show q = _ from h]; rfl⟩
  | ended v => rcases h with rfl | rfl <;> exact absurd trivial hq

theorem Fits.early (h : Fits κ π) (hκ : κ.hasRaised = false) : π.collected = false ∧ π ≠ .done := by
  have hcollected : π.collected = false := by
    rw [← Bool.not_eq_true]
    exact fun hc => absurd (h.raised hc) (by simp [hκ])
  refine ⟨hcollected, ?_⟩
  rintro rfl
  simp [ParentPhase.collected] at hcollected

theorem JoinPc.Joins.running (h : q.Joins c) : q.Running := by
  rcases h with rfl | h
  · trivial
  · cases q <;> simp_all [JoinPc.Running, JoinPc.target]

theorem JoinPc.Joins.eq (h : q.Joins c) {d : T} (hd : q.target = some d) : d = c := by
  rcases h with rfl | h
  · cases hd
  · exact Option.some.inj (hd.symm.trans h)

theorem Own.move (h : Own s c) (hkept : Kept s s' c)
    (hmade : ∀ p, (s.hist p).made = true → (s'.hist p).made = true)
    (hpc : ∀ u, u ≠ t → s'.pc u = s.pc u)
    (hchild : c = t → ∀ κ : ChildPhase, κ.At t (s.pc t) → κ.At t (s'.pc t))
    (hparent : ∀ π : ParentPhase, π.At c (s.pc t) → π.At c (s'.pc t))
    (halone : c = t → (s.pc t).Alone → (s'.pc t).Alone) : Own s' c := by
  rw [Own, hkept.hist]
  rw [Own] at h
  cases hp : (s.hist c).parent with
  | none =>
    rw [hp] at h
    refine ⟨fun th hth => ?_, ?_⟩
    · rcases hkept.thread with hsame | ⟨-, hnone⟩
      · exact h.1 th (hsame ▸ hth)
      · simp [hnone] at hth
    · by_cases hct : c = t
      · subst hct
        exact halone rfl h.2
      · rw [hpc c hct]
        exact h.2
  | some p =>
    rw [hp] at h
    obtain ⟨hne, hpmade, κ, π, hpair⟩ := h
    refine ⟨hne, hmade p hpmade, κ, π, hpair.fits, ?_, ?_, hkept.hist.trans hpair.hist,
      fun hover => ?_, hkept.psem.trans hpair.psem, hkept.csem.trans hpair.csem⟩
    · by_cases hct : c = t
      · subst hct
        exact hchild rfl κ hpair.child
      · rw [hpc c hct]
        exact hpair.child
    · by_cases hpt : p = t
      · subst hpt
        exact hparent π hpair.parent
      · rw [hpc p hpt]
        exact hpair.parent
    · rcases hkept.thread with hsame | ⟨hz, -⟩
      · exact hsame.trans (hpair.thread hover)
      · -- a zombie has destroyed its semaphores
        have hat := hpair.child
        rw [hz] at hat
        cases κ with
        | ended v => simp [ChildPhase.over] at hover
        | running => exact absurd rfl hat
        | _ => exact absurd hat (by simp [ChildPhase.At])

end

section

theorem Moved.goes_on (hcur : s.cur = some t) (hcur' : s'.cur = s.cur) (hsaved : s'.saved = s.saved)
    (hpc : s'.pc = update s.pc t q) (hawake : q.Awake)
    (hoff : q.Off → s'.cpu.intr = false) : Moved s s' t q := by
  have hto : s'.pc t = q := by rw [hpc, update_self]
  refine ⟨hto, fun u hu => by rw [hpc, update_of_ne hu], fun u _ => by rw [hsaved],
    .inl ⟨hcur'.trans hcur, hto.symm ▸ hoff, ?_⟩⟩
  rw [JoinSys.Runnable, hto]
  cases q <;> simp_all [JoinPc.Awake, JoinPc.Present]

theorem Moved.sleeps (hcur : s'.cur = none) (hsaved : s'.saved = update s.saved t false)
    (hpc : s'.pc = update s.pc t q) (hq : ¬ q.Busy) : Moved s s' t q := by
  have hto : s'.pc t = q := by rw [hpc, update_self]
  refine ⟨hto, fun u hu => by rw [hpc, update_of_ne hu],
    fun u hu => by rw [hsaved, update_of_ne hu], .inr ⟨hcur, fun _ => ⟨?_, hto.symm ▸ hq⟩⟩⟩
  rw [hsaved, update_self]

variable (h : JoinInv s) (hcur : s.cur = some t)
include h hcur

theorem JoinInv.present : (s.pc t).Present := by
  have hrun := h.cur t hcur
  rw [JoinSys.Runnable] at hrun
  cases hpc : s.pc t <;> simp_all [JoinPc.Present]

theorem JoinInv.made : (s.hist t).made = true := by
  by_contra hmade
  have hpresent := h.present hcur
  rw [(h.fresh t (by simpa using hmade)).pc] at hpresent
  exact hpresent

/-- The invariant after a step of the current thread, from what the step has done. -/
theorem JoinInv.of_step (hmoved : Moved s s' t q')
    (hhist : ∀ c, (s'.hist c).made = (s.hist c).made ∧ (s'.hist c).parent = (s.hist c).parent)
    (hfresh : ∀ c, (s.hist c).made = false → Kept s s' c)
    (hlive : ∀ u, (s.thread u).isSome → s.pc u = .zombie ∨ (s'.thread u).isSome)
    (htarget : ∀ c, q'.target = some c → (s.hist c).parent = some t) (hown : ∀ c, Own s' c) :
    JoinInv s' := by
  obtain ⟨rfl, hpc, hsaved, hthis⟩ := hmoved
  have hpresent := h.present hcur
  refine ⟨hown, fun c hmade => ?_, fun u c hu => ?_, fun u hu => ?_, fun u hu => ?_, fun u hu => ?_⟩
  · have hmade : (s.hist c).made = false := (hhist c).1 ▸ hmade
    have hold := h.fresh c hmade
    have hct : c ≠ t := by
      rintro rfl
      rw [hold.pc] at hpresent
      exact hpresent
    have hkept := hfresh c hmade
    refine ⟨(hpc c hct).trans hold.pc, ?_, hkept.psem.trans hold.psem, hkept.csem.trans hold.csem,
      hkept.hist.trans hold.hist⟩
    rcases hkept.thread with hsame | ⟨-, hnone⟩
    · exact hsame.trans hold.thread
    · exact hnone
  · rw [(hhist c).2]
    by_cases hut : u = t
    · subst hut
      exact htarget c hu
    · rw [hpc u hut] at hu
      exact h.target u c hu
  · have hsome : (s.pc u).Present := by
      by_cases hut : u = t
      · subst hut
        exact hpresent
      · rw [hpc u hut] at hu
        exact hu
    rcases hlive u (h.live u hsome) with hz | hsome'
    · rw [hz] at hsome
      exact hsome.elim
    · exact hsome'
  · by_cases hut : u = t
    · subst hut
      rw [Quiet]
      rcases hthis with ⟨hc, hoff, -⟩ | ⟨hc, hoff⟩
      · rw [if_pos hc]
        exact hoff hu
      · rw [if_neg (by simp [hc])]
        exact hoff hu
    · rw [hpc u hut] at hu
      have hquiet := h.off u hu
      have hne : s.cur ≠ some u := fun he => hut (Option.some.inj (he.symm.trans hcur))
      rw [Quiet, if_neg hne] at hquiet
      have hne' : s'.cur ≠ some u := by
        rcases hthis with ⟨hc, -⟩ | ⟨hc, -⟩
        · exact fun he => hut (Option.some.inj (he.symm.trans hc))
        · simp [hc]
      rw [Quiet, if_neg hne', hsaved u hut, hpc u hut]
      exact hquiet
  · rcases hthis with ⟨hc, -, hrun⟩ | ⟨hc, -⟩
    · obtain rfl : t = u := Option.some.inj (hc.symm.trans hu)
      exact hrun
    · simp [hc] at hu

theorem JoinInv.own_step (hfrom : s.pc t = q) (hmoved : Moved s s' t q') (hkept : ∀ c, Kept s s' c)
    (htarget : q'.target = q.target) (hchild : ∀ κ : ChildPhase, κ.At t q → κ.At t q')
    (hparent : ∀ c, ∀ π : ParentPhase, π.At c q → π.At c q') (halone : q.Alone → q'.Alone) :
    JoinInv s' := by
  subst hfrom
  have hhist : ∀ c, s'.hist c = s.hist c := fun c => (hkept c).hist
  refine h.of_step hcur hmoved (fun c => by rw [hhist c]; exact ⟨rfl, rfl⟩) (fun c _ => hkept c)
    (fun u hu => ?_) (fun c hc => h.target t c (htarget ▸ hc)) (fun c => ?_)
  · rcases (hkept u).thread with hsame | ⟨hz, -⟩
    · exact .inr (hsame ▸ hu)
    · exact .inl hz
  · obtain ⟨rfl, hpc, -⟩ := hmoved
    exact (h.own c).move (hkept c) (fun p hp => by rwa [hhist p]) hpc (fun _ => hchild) (hparent c)
      fun _ => halone

theorem JoinInv.pair_step (hpar : (s.hist c).parent = some p) (hmoved : Moved s s' t q')
    (hkept : ∀ d, d ≠ c → Kept s s' d) (hlive : (s'.thread c).isSome)
    (hpair : ∃ κ π, Pair s' p c κ π)
    (htarget : ∀ d, q'.target = some d → (s.hist d).parent = some t)
    (hchild : c ≠ t → ∀ κ : ChildPhase, κ.At t (s.pc t) → κ.At t q')
    (hparent : ∀ d, d ≠ c → ∀ π : ParentPhase, π.At d (s.pc t) → π.At d q')
    (halone : c ≠ t → q'.Alone) : JoinInv s' := by
  have hown := h.own c
  rw [Own, hpar] at hown
  obtain ⟨hcp, hpmade, κ0, π0, hpair0⟩ := hown
  have hhist : ∀ d, (s'.hist d).made = (s.hist d).made ∧
      (s'.hist d).parent = (s.hist d).parent := by
    intro d
    by_cases hd : d = c
    · subst hd
      obtain ⟨κ, π, hpair⟩ := hpair
      rw [hpair.hist, hpair0.hist]
      exact ⟨rfl, rfl⟩
    · rw [(hkept d hd).hist]
      exact ⟨rfl, rfl⟩
  refine h.of_step hcur hmoved hhist (fun d hd => hkept d ?_) (fun u hu => ?_) htarget
    (fun d => ?_)
  · rintro rfl
    rw [hpair0.hist] at hd
    exact absurd hd (by simp [histOf])
  · by_cases huc : u = c
    · subst huc
      exact .inr hlive
    · rcases (hkept u huc).thread with hsame | ⟨hz, -⟩
      · exact .inr (hsame ▸ hu)
      · exact .inl hz
  · by_cases hd : d = c
    · subst hd
      rw [Own, (hhist d).2, hpar]
      exact ⟨hcp, (hhist p).1.trans hpmade, hpair⟩
    · obtain ⟨rfl, hpc, -⟩ := hmoved
      refine (h.own d).move (hkept d hd) (fun p hp => (hhist p).1.trans hp) hpc (fun he => ?_)
        (hparent d hd) (fun he _ => ?_)
      · exact hchild (by rintro rfl; exact hd he)
      · exact halone (by rintro rfl; exact hd he)

theorem JoinInv.parent_step (hct : c ≠ t)
    (hpair : Pair s t c κ π) {ρ : ParentPhase} (hfits : Fits κ ρ) (hover : κ.over = false)
    (hfrom : s.pc t = q) (hq : q.Joins c) (hq' : q'.Joins c) (hmoved : Moved s s' t q')
    (hkept : ∀ d, d ≠ c → Kept s s' d) (hat : ρ.At c q') (hhist : s'.hist c = histOf t κ ρ)
    (hthread : s'.thread c = some (threadOf t c κ ρ))
    (hpsem : s'.sem (.psem c) = some (psemOf t κ.hasRaised ρ))
    (hcsem : s'.sem (.csem c) = some (csemOf c κ ρ.released)) : JoinInv s' := by
  subst hfrom
  have hpar : (s.hist c).parent = some t := by rw [hpair.hist, histOf]
  refine h.pair_step hcur hpar hmoved hkept (by simp [hthread]) ⟨κ, ρ, hfits,
      (hmoved.pc c hct).symm ▸ hpair.child, hmoved.there.symm ▸ hat, hhist,
      fun _ => hthread, ?_, ?_⟩
    (fun d hd => ?_) (fun _ κ hκ => hκ.running hq.running hq'.running) (fun d hd π hπ => ?_)
    (fun _ => hq'.running.alone)
  · rw [hpsem, hover, if_neg Bool.false_ne_true]
  · rw [hcsem, hover, if_neg Bool.false_ne_true]
  · rw [hq'.eq hd]
    exact hpar
  · exact hπ.away (fun he => hd (hq.eq he)) (fun he => hd (hq'.eq he))

theorem JoinInv.child_step (htp : t ≠ p) (hpair : Pair s p t κ π) {μ : ChildPhase}
    (hfits : Fits μ π) (hfrom : s.pc t = q) (htgt : q.target = none) (htgt' : q'.target = none)
    (hmoved : Moved s s' t q') (hkept : ∀ d, d ≠ t → Kept s s' d) (hat : μ.At t q')
    (hhist : s'.hist t = histOf p μ π) (hlive : (s'.thread t).isSome)
    (hthread : μ.over = false → s'.thread t = some (threadOf p t μ π))
    (hpsem : s'.sem (.psem t) = if μ.over then none else some (psemOf p μ.hasRaised π))
    (hcsem : s'.sem (.csem t) = if μ.over then none else some (csemOf t μ π.released)) :
    JoinInv s' := by
  subst hfrom
  have hpar : (s.hist t).parent = some p := by rw [hpair.hist, histOf]
  refine h.pair_step hcur hpar hmoved hkept hlive ⟨μ, π, hfits, hmoved.there.symm ▸ hat,
      (hmoved.pc p htp.symm).symm ▸ hpair.parent, hhist, hthread, hpsem, hcsem⟩
    (fun d hd => ?_) (fun he => absurd rfl he) (fun d hd π hπ => ?_) (fun he => absurd rfl he)
  · simp [htgt'] at hd
  · exact hπ.away (by simp [htgt]) (by simp [htgt'])

end

end JinxOS
