import JinxOS.Synch.Cv

/-!
# Condition variables and recursive locks

The functions of `cv.c` release the lock with one call of `lock_release` and take it again with one
call of `lock_acquire`, while the lock is recursive.  What that means depends on the depth at which
the caller holds the lock.

* A thread that calls `cv_wait` at depth one gives the lock up.  At a greater depth it goes to sleep
  as the owner, and nobody else can take the lock to signal it.  Either way it comes back at the
  depth at which it left (`cvWait_depth`).
* A thread that calls `cv_signal` or `cv_broadcast` at depth one gives the lock up in the middle of
  its critical section.  At a greater depth it does not (`cvSignal_section`).
-/

namespace JinxOS

variable {T C : Type} [DecidableEq T] [DecidableEq C]

/-! ## The depth of a wait -/

/-- The depth of a call of `cv_wait` that has released the lock and not taken it again. -/
def Pc.gaveUp : Pc T C → Option Int
  | .released (.wait _ d) => some d
  | .asleep _ d => some d
  | .relocked _ d => some d
  | .reacquire (.wait _ d) => some d
  | .inAcquire (some (.wait _ d)) => some d
  | _ => none

/-- What `lock_release` in `cv_wait` leaves a thread that held the lock at depth `d`: nothing, or
one level less. -/
def LeftWith (lk : Lock T) (t : T) (d : Int) : Prop :=
  d = 1 ∧ lk.owner ≠ some t ∨ 1 < d ∧ d < 2 ^ 31 ∧ lk.owner = some t ∧ lk.count = d - 1

/-- The invariant of the depths. -/
structure DepthInv (s : CvSys T C) : Prop where
  range : -2 ^ 31 ≤ s.lock.count ∧ s.lock.count < 2 ^ 31
  /-- A holder that has called `cv_wait` is at the depth of the call. -/
  entered : ∀ t c d, s.pc t = .entered (.wait c d) → s.lock.owner = some t → s.lock.count = d
  /-- A thread that has given the lock up is at the depth that is left. -/
  gaveUp : ∀ t d, (s.pc t).gaveUp = some d → LeftWith s.lock t d

section
variable {s s' : CvSys T C} {t u : T} {op : CvOp C}

section
variable {lk lk' : Lock T} {d : Int}

theorem leftWith_release (hd : lk.count = d) (hlt : lk.count < 2 ^ 31)
    (h : lockRelease lk t = .ok lk') : LeftWith lk' t d := by
  obtain ⟨ho, hpos, hcases⟩ := lockRelease_ok h
  rw [toInt_eq] at hcases
  rcases hcases with ⟨hzero, rfl⟩ | ⟨hne, rfl⟩
  · exact .inl ⟨by omega, by simp⟩
  · exact .inr ⟨by omega, by omega, ho, by dsimp only; omega⟩

theorem LeftWith.tried {q : WaitQueue T} (h : LeftWith lk t d)
    (htry : lockAcquireTry { lk with wchan := q } t = .ok (false, lk')) : LeftWith lk' t d := by
  rcases lockAcquireTry_ok htry with ⟨-, -, rfl⟩ | ⟨hb, -⟩
  · exact h
  · exact absurd hb (by simp)

theorem LeftWith.taken {q : WaitQueue T} (h : LeftWith lk t d)
    (htry : lockAcquireTry { lk with wchan := q } t = .ok (true, lk')) :
    lk'.owner = some t ∧ lk'.count = d := by
  rcases lockAcquireTry_ok htry with ⟨hb, -⟩ | ⟨-, -, hnone, rfl⟩
  · exact absurd hb (by simp)
  · have hnone : lk.owner = none := hnone
    rcases h with ⟨rfl, -⟩ | ⟨-, -, ho, -⟩
    · exact ⟨rfl, rfl⟩
    · simp [hnone] at ho

end

theorem DepthInv.self (h : DepthInv s) (hmove : CvMove s t op s') :
    (∀ c d, s'.pc t = .entered (.wait c d) → s'.lock.owner = some t → s'.lock.count = d) ∧
      ∀ d, (s'.pc t).gaveUp = some d → LeftWith s'.lock t d := by
  -- only a call of `cv_wait` leads to its first point, and only a release behind it
  cases hmove with
  | acquire b lk hpc hlk => cases b <;> simp [CvSys.tried, Pc.gaveUp]
  | release lk hpc hlk => simp [hpc, Pc.gaveUp]
  | wait c hpc hfree =>
    refine ⟨fun c' d hd _ => ?_, by simp [cvEnter, Pc.gaveUp]⟩
    simp only [cvEnter, CvSys.goto_self, Pc.entered.injEq, CvCall.wait.injEq] at hd
    exact hd.2
  | signal c hpc hfree => simp [cvEnter, Pc.gaveUp]
  | broadcast c hpc hfree => simp [cvEnter, Pc.gaveUp]
  | giveUp k lk hpc hlk =>
    cases k with
    | wake c all ws => simp [CvSys.gaveUp, Pc.gaveUp]
    | wait c d =>
      refine ⟨by simp [CvSys.gaveUp], fun d' hd => ?_⟩
      simp only [CvSys.gaveUp, CvSys.goto_self, Pc.gaveUp, Option.some.injEq] at hd
      obtain rfl := hd
      obtain ⟨ho, -, -⟩ := lockRelease_ok hlk
      exact leftWith_release (h.entered t c d hpc ho) h.range.2 hlk
  | sleep c d hpc =>
    refine ⟨by simp [CvSys.slept], fun d' hd => h.gaveUp t d' ?_⟩
    simpa [CvSys.slept, hpc, Pc.gaveUp] using hd
  | wake c all ws hpc => simp [CvSys.woke, Pc.gaveUp]
  | relock c d hpc hwoken hfree =>
    refine ⟨by simp [cvRelock], fun d' hd => h.gaveUp t d' ?_⟩
    simpa [cvRelock, hpc, Pc.gaveUp] using hd
  | unlockWait c d hpc =>
    refine ⟨by simp [cvUnlock], fun d' hd => h.gaveUp t d' ?_⟩
    simpa [cvUnlock, hpc, Pc.gaveUp] using hd
  | unlockWake c all ws hpc => simp [cvUnlock, Pc.gaveUp]
  | reacquire k b lk hpc hlk =>
    cases b with
    | true => simp [CvSys.tried, Pc.gaveUp]
    | false =>
      refine ⟨by simp [CvSys.tried], fun d hd => ?_⟩
      have hold : (s.pc t).gaveUp = some d := by
        rw [hpc]
        cases k with
        | wait c d' => simpa [CvSys.tried, Pc.gaveUp] using hd
        | wake c all ws => simp [CvSys.tried, Pc.gaveUp] at hd
      have ho : s.lock.owner ≠ some t := by
        intro ho
        rw [lockAcquire_owner ho] at hlk
        simp at hlk
      rw [lockAcquire_other ho] at hlk
      exact (h.gaveUp t d hold).tried hlk
  | again k b lk hpc hwoken hlk =>
    cases b with
    | true => simp [CvSys.tried, Pc.gaveUp]
    | false =>
      refine ⟨by simp [CvSys.tried], fun d hd => ?_⟩
      have hold : (s.pc t).gaveUp = some d := by
        simpa [CvSys.tried, hpc] using hd
      exact (h.gaveUp t d hold).tried hlk

theorem DepthInv.step (h : DepthInv s) (hmove : CvMove s u op s') : DepthInv s' := by
  obtain ⟨hentered, hgaveUp⟩ := h.self hmove
  refine ⟨hmove.lock.range h.range, fun t c d hpc ho => ?_, fun t d hd => ?_⟩
  · by_cases htu : t = u
    · subst htu
      exact hentered c d hpc ho
    · obtain ⟨hiff, hcount⟩ := hmove.lock.keeps (Ne.symm htu)
      rw [hmove.other htu] at hpc
      have ho' := hiff.1 ho
      rw [hcount ho']
      exact h.entered t c d hpc ho'
  · by_cases htu : t = u
    · subst htu
      exact hgaveUp d hd
    · obtain ⟨hiff, hcount⟩ := hmove.lock.keeps (Ne.symm htu)
      rw [hmove.other htu] at hd
      rcases h.gaveUp t d hd with ⟨hone, ho⟩ | ⟨hgt, hlt, ho, hc⟩
      · exact .inl ⟨hone, fun ho' => ho (hiff.1 ho')⟩
      · exact .inr ⟨hgt, hlt, hiff.2 ho, (hcount ho).trans hc⟩

theorem CvRun.depth {tr : List (CvSys T C × (T × CvOp C))} (h : CvRun tr s) : DepthInv s := by
  refine Run.invariant ?_ (fun _ _ _ hI hs => hI.step hs.move) h
  rintro _ rfl
  exact ⟨⟨by simp [CvSys.init, lockCreate], by simp [CvSys.init, lockCreate]⟩,
    by simp [CvSys.init], by simp [CvSys.init, Pc.gaveUp]⟩

theorem LeftWith.reacquire {lk lk' : Lock T} {d : Int} (h : LeftWith lk t d)
    (hlk : lockAcquire lk t = .ok (true, lk')) : lk'.owner = some t ∧ lk'.count = d := by
  by_cases ho : lk.owner = some t
  · rw [lockAcquire_owner ho] at hlk
    cases hlk
    rcases h with ⟨-, hne⟩ | ⟨hgt, hlt, -, hcount⟩
    · exact absurd ho hne
    · refine ⟨ho, ?_⟩
      dsimp only
      rw [hcount, toInt_eq]
      omega
  · rw [lockAcquire_other ho] at hlk
    exact h.taken hlk

/-- A call of `cv_wait` returns with the lock at the depth of the call. -/
theorem DepthInv.returns (h : DepthInv s) {c : C} {d : Int}
    (hpc : s.pc t = .reacquire (.wait c d) ∨ s.pc t = .inAcquire (some (.wait c d)))
    (hmove : CvMove s t .go s') (hidle : s'.pc t = .idle) :
    s'.lock.owner = some t ∧ s'.lock.count = d := by
  have hleft : LeftWith s.lock t d := by
    refine h.gaveUp t d ?_
    rcases hpc with hpc | hpc <;> simp [hpc, Pc.gaveUp]
  rcases hpc with hpc | hpc
  · obtain ⟨b, lk, hlk, rfl⟩ : ∃ b lk, lockAcquire s.lock t = .ok (b, lk) ∧
        s' = s.tried t (some (.wait c d)) b lk := by
      cases hmove <;> simp_all
    obtain rfl := CvSys.tried_idle hidle
    exact hleft.reacquire hlk
  · obtain ⟨b, lk, hlk, rfl⟩ : ∃ b lk, lockAcquireAgain s.lock t = .ok (b, lk) ∧
        s' = s.tried t (some (.wait c d)) b lk := by
      cases hmove <;> simp_all
    obtain rfl := CvSys.tried_idle hidle
    exact hleft.taken hlk

end

/-- **`cv_wait` gives the lock up exactly if it is called at depth one.**  In every run, a thread
that is asleep in a `cv_wait` called at depth `d` is not the owner of the lock exactly if `d` is
one.  When the call returns the thread owns the lock at depth `d`. -/
theorem cvWait_depth {tr : List (CvSys T C × (T × CvOp C))} {s : CvSys T C} (h : CvRun tr s) :
    (∀ t c d, s.pc t = .asleep c d → 1 ≤ d ∧ (s.lock.owner ≠ some t ↔ d = 1)) ∧
      ∀ t c d s', s.pc t = .reacquire (.wait c d) ∨ s.pc t = .inAcquire (some (.wait c d)) →
        CvStep s (t, .go) s' → s'.pc t = .idle → s'.lock.owner = some t ∧ s'.lock.count = d := by
  refine ⟨fun t c d hpc => ?_, fun t c d s' hpc hstep hidle => ?_⟩
  · rcases h.depth.gaveUp t d (by simp [hpc, Pc.gaveUp]) with ⟨rfl, ho⟩ | ⟨hgt, -, ho, -⟩
    · exact ⟨Int.le_refl 1, by simpa using ho⟩
    · exact ⟨by omega, by simp [ho]; omega⟩
  · exact h.depth.returns hpc hstep.move hidle

/-- A thread that waits at depth one. -/
theorem cvWait_depth_one : ∃ (tr : List (CvSys Bool Unit × (Bool × CvOp Unit)))
    (s : CvSys Bool Unit), CvRun tr s ∧ s.pc false = .asleep () 1 ∧ s.lock.owner ≠ some false := by
  have hinit : CvRun [] (CvSys.init : CvSys Bool Unit) := Run.init rfl
  have hheld := cvNext_run hinit false .lockAcquire rfl rfl
  have hentered := cvNext_run hheld false (.wait ()) ⟨rfl, rfl⟩ rfl
  have hreleased := cvNext_run hentered false .go trivial rfl
  have hasleep := cvNext_run hreleased false .go trivial rfl
  exact ⟨_, _, hasleep, rfl, ((cvWait_depth hasleep).1 false () 1 rfl).2.2 rfl⟩

/-- A thread that holds the lock twice and waits is asleep as the owner of the lock. -/
theorem cvWait_asleep_owner : ∃ (tr : List (CvSys Bool Unit × (Bool × CvOp Unit)))
    (s : CvSys Bool Unit), CvRun tr s ∧ s.pc false = .asleep () 2 ∧
      false ∈ (s.cv ()).wchan.asleep ∧ s.lock.owner = some false := by
  have hinit : CvRun [] (CvSys.init : CvSys Bool Unit) := Run.init rfl
  have hheld := cvNext_run hinit false .lockAcquire rfl rfl
  have htwice := cvNext_run hheld false .lockAcquire rfl rfl
  have hentered := cvNext_run htwice false (.wait ()) ⟨rfl, rfl⟩ rfl
  have hreleased := cvNext_run hentered false .go trivial rfl
  have hasleep := cvNext_run hreleased false .go trivial rfl
  exact ⟨_, _, hasleep, rfl, List.mem_singleton_self _, rfl⟩

/-! ## The critical section of a signaller -/

/-- A thread completes a call of `lock_acquire`. -/
def Acquires (s : CvSys T C) (t : T) (s' : CvSys T C) : Prop :=
  (CvStep s (t, .lockAcquire) s' ∨ s.pc t = .inAcquire none ∧ CvStep s (t, .go) s') ∧
    s'.pc t = .idle

/-- The thread `t` has not called the `lock_release` that matches an acquire to depth `k`, and does
not call `cv_wait`. -/
def BeforeRelease (t : T) (k : Int) (s : CvSys T C) (a : T × CvOp C) : Prop :=
  a.1 = t → match a.2 with
    | .lockRelease => k < s.lock.count
    | .wait _ => False
    | _ => True

/-- When the thread `t` signals it holds the lock at least twice. -/
def SignalsDeep (t : T) (s : CvSys T C) (a : T × CvOp C) : Prop :=
  a.1 = t → match a.2 with
    | .signal _ => 1 < s.lock.count
    | .broadcast _ => 1 < s.lock.count
    | _ => True

/-- The thread owns the lock, and at least twice when it is about to release it in a call. -/
structure OwnsInv (t : T) (s : CvSys T C) : Prop where
  owner : s.lock.owner = some t
  range : -2 ^ 31 ≤ s.lock.count ∧ s.lock.count < 2 ^ 31
  entered : ∀ k, s.pc t = .entered k → 1 < s.lock.count

section
variable {s s' : CvSys T C} {t u : T} {op : CvOp C} {k : Int}

theorem lockRelease_owner {lk lk' : Lock T} (hlt : 1 < lk.count) (hmax : lk.count < 2 ^ 31)
    (h : lockRelease lk t = .ok lk') : lk'.owner = some t := by
  obtain ⟨ho, -, hcases⟩ := lockRelease_ok h
  rw [toInt_eq] at hcases
  rcases hcases with ⟨hzero, -⟩ | ⟨-, rfl⟩
  · omega
  · exact ho

theorem lockAcquire_keeps_owner {lk lk' : Lock T} {b : Bool} (ho : lk.owner = some t)
    (h : lockAcquire lk t = .ok (b, lk')) : lk'.owner = some t := by
  rw [lockAcquire_owner ho] at h
  cases h
  exact ho

theorem OwnsInv.step (h : OwnsInv t s) (hk : 0 < k) (hbefore : BeforeRelease t k s (u, op))
    (hdeep : SignalsDeep t s (u, op)) (hmove : CvMove s u op s') : OwnsInv t s' := by
  have hrange := hmove.lock.range h.range
  by_cases htu : u = t
  · subst htu
    cases hmove with
    | acquire b lk hpc hlk | reacquire call b lk hpc hlk =>
      refine ⟨lockAcquire_keeps_owner h.owner hlk, hrange, ?_⟩
      cases b <;> simp [CvSys.tried]
    | release lk hpc hlk =>
      have hgt : k < s.lock.count := hbefore rfl
      exact ⟨lockRelease_owner (by omega) h.range.2 hlk, hrange, by simp [hpc]⟩
    | wait c hpc hfree => exact (hbefore rfl).elim
    | signal c hpc hfree | broadcast c hpc hfree => exact ⟨h.owner, hrange, fun _ _ => hdeep rfl⟩
    | giveUp call lk hpc hlk =>
      refine ⟨lockRelease_owner (h.entered call hpc) h.range.2 hlk, hrange, ?_⟩
      simp [CvSys.gaveUp]
    | sleep c d hpc => exact ⟨h.owner, hrange, by simp [CvSys.slept]⟩
    | wake c all ws hpc => exact ⟨h.owner, hrange, by simp [CvSys.woke]⟩
    | relock c d hpc hwoken hfree => exact ⟨h.owner, hrange, by simp [cvRelock]⟩
    | unlockWait c d hpc | unlockWake c all ws hpc => exact ⟨h.owner, hrange, by simp [cvUnlock]⟩
    | again call b lk hpc hwoken hlk =>
      rcases lockAcquireTry_ok hlk with ⟨rfl, -, rfl⟩ | ⟨-, -, hnone, -⟩
      · exact ⟨h.owner, hrange, by simp [CvSys.tried]⟩
      · have hnone : s.lock.owner = none := hnone
        exact absurd (hnone.symm.trans h.owner) (by simp)
  · obtain ⟨hiff, hcount⟩ := hmove.lock.keeps htu
    refine ⟨hiff.2 h.owner, hrange, fun call hpc => ?_⟩
    rw [hmove.other (Ne.symm htu)] at hpc
    rw [hcount h.owner]
    exact h.entered call hpc

theorem Acquires.owns (h : DepthInv s) (hacq : Acquires s t s') : OwnsInv t s' := by
  obtain ⟨hstep, hidle⟩ := hacq
  have hentered : ∀ call, s'.pc t = .entered call → 1 < s'.lock.count := by
    intro call hpc
    simp [hidle] at hpc
  rcases hstep with hstep | ⟨hpc, hstep⟩
  · have hrange := hstep.move.lock.range h.range
    cases hstep.move with
    | acquire b lk hpc hlk =>
      obtain rfl := CvSys.tried_idle hidle
      exact ⟨lockAcquire_done hlk, hrange, hentered⟩
  · have hrange := hstep.move.lock.range h.range
    obtain ⟨b, lk, hlk, rfl⟩ : ∃ b lk, lockAcquireAgain s.lock t = .ok (b, lk) ∧
        s' = s.tried t none b lk := by
      cases hstep.move <;> simp_all
    obtain rfl := CvSys.tried_idle hidle
    rcases lockAcquireTry_ok hlk with ⟨hb, -⟩ | ⟨-, -, -, rfl⟩
    · exact absurd hb (by simp)
    · exact ⟨rfl, hrange, hentered⟩

end

/-- **Signalling keeps the critical section of a thread that holds the lock twice.**  A thread
acquires the lock; from then on, as long as it has not called the matching `lock_release` nor
`cv_wait`, and has called `cv_signal` and `cv_broadcast` at depth two or more only, it is the owner
of the lock, whatever the other threads do. -/
theorem cvSignal_section {tr seg : List (CvSys T C × (T × CvOp C))} {s₀ s₁ s : CvSys T C} {t : T}
    (h : CvRun tr s₀) (hacq : Acquires s₀ t s₁) (hpos : 0 < s₁.lock.count)
    (hseg : Run (fun s => s = s₁) CvStep seg s)
    (hbefore : ∀ e ∈ seg, BeforeRelease t s₁.lock.count e.1 e.2)
    (hdeep : ∀ e ∈ seg, SignalsDeep t e.1 e.2) : s.lock.owner = some t := by
  have hinit : ∀ s, s = s₁ → OwnsInv t s := by
    rintro _ rfl
    exact hacq.owns h.depth
  have hinv : OwnsInv t s := Run.invariant_of
    (C := fun s a => BeforeRelease t s₁.lock.count s a ∧ SignalsDeep t s a) hinit
    (fun _ _ _ hI hC hs => hI.step hpos hC.1 hC.2 hs.move) hseg
    fun e he => ⟨hbefore e he, hdeep e he⟩
  exact hinv.owner

/-- A thread has acquired a new lock. -/
def heldOnce : CvSys Bool Unit := cvNext .init false .lockAcquire

/-- It has acquired it once more. -/
def heldTwice : CvSys Bool Unit := cvNext heldOnce false .lockAcquire

/-- A thread that holds the lock twice, and signals. -/
theorem cvSignal_section_twice : ∃ (seg : List (CvSys Bool Unit × (Bool × CvOp Unit)))
    (s : CvSys Bool Unit), Run (fun s => s = heldTwice) CvStep seg s ∧
      s.pc false = .released (.wake () false []) ∧ s.lock.owner = some false := by
  have hinit : CvRun [] (CvSys.init : CvSys Bool Unit) := Run.init rfl
  have honce := cvNext_run hinit false .lockAcquire rfl rfl
  have hacq : Acquires heldOnce false heldTwice :=
    ⟨.inl ⟨rfl, Except.eq_ok_okD rfl heldOnce⟩, rfl⟩
  have hstart : Run (fun s => s = heldTwice) CvStep [] heldTwice := Run.init rfl
  have hentered := cvNext_run hstart false (.signal ()) ⟨rfl, rfl⟩ rfl
  have hreleased := cvNext_run hentered false .go trivial rfl
  refine ⟨_, _, hreleased, rfl, cvSignal_section honce hacq (by decide) hreleased ?_ ?_⟩
  · intro e he
    simp only [List.mem_cons, List.not_mem_nil, or_false] at he
    rcases he with rfl | rfl <;> exact fun _ => trivial
  · intro e he
    simp only [List.mem_cons, List.not_mem_nil, or_false] at he
    rcases he with rfl | rfl
    · exact fun _ => trivial
    · exact fun _ => (by decide : (1 : Int) < 2)

/-- A thread that holds the lock once and signals loses it to another thread. -/
theorem cvSignal_other_owner : ∃ (seg : List (CvSys Bool Unit × (Bool × CvOp Unit)))
    (s : CvSys Bool Unit), Acquires CvSys.init false heldOnce ∧
      Run (fun s => s = heldOnce) CvStep seg s ∧
      (∀ e ∈ seg, BeforeRelease false heldOnce.lock.count e.1 e.2) ∧ s.lock.owner = some true := by
  have hacq : Acquires CvSys.init false heldOnce :=
    ⟨.inl ⟨rfl, Except.eq_ok_okD rfl CvSys.init⟩, rfl⟩
  have hstart : Run (fun s => s = heldOnce) CvStep [] heldOnce := Run.init rfl
  have hentered := cvNext_run hstart false (.signal ()) ⟨rfl, rfl⟩ rfl
  have hreleased := cvNext_run hentered false .go trivial rfl
  have hother := cvNext_run hreleased true .lockAcquire rfl rfl
  refine ⟨_, _, hacq, hother, fun e he => ?_, rfl⟩
  simp only [List.mem_cons, List.not_mem_nil, or_false] at he
  rcases he with rfl | rfl | rfl <;> exact fun _ => trivial

end JinxOS
