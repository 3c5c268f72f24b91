import JinxOS.Synch.Cv

/-!
# Monitors

Several structures of the kernel are an object with a lock and a condition variable, and their
functions all have one form: take the lock, access the object, possibly wait or signal, release the
lock.  A `Monitor` is such a set of functions.  The local states of a thread in a call are the
points between two accesses to what threads share, and `act` says what a thread does next at each of
them.  The lock and the condition variables are those of `Synch/Cv.lean`, with all their steps, so a
run of a monitor has every interleaving that the code has.

A call takes the lock once.  So a thread that is between two calls of the lock's functions, or has
entered one and not released the lock yet, is the owner, at depth one (`MonInv`), and no other
thread is at such a point.  This gives the rule for monitors (`MonSpec.run`): `Good` is known of the
object whenever the lock is free, and `Know p` is known by the thread that holds the lock at the
point `p`.
-/

namespace JinxOS

open Function (update_self update_of_ne update_eq_self update)

/-- What a thread does next in a call. -/
inductive MonAct (C σ π : Type)
  /-- Access the object, and go on. -/
  | access (f : σ → Except Fault (σ × π))
  /-- The same in a function that takes the lock once more, and releases it. -/
  | nested (f : σ → Except Fault (σ × π))
  /-- Call `cv_wait`, and go on. -/
  | wait (c : C) (p : π)
  /-- Call `cv_signal`, and go on. -/
  | signal (c : C) (p : π)
  /-- Call `lock_release`, and return. -/
  | release

/-- The functions of an object with a lock.  `κ` is the type of calls, and `π` of points in a call.
-/
structure Monitor (C σ π κ : Type) where
  /-- The point after the `lock_acquire` of a call. -/
  start : κ → π
  /-- What a thread does at a point. -/
  act : π → MonAct C σ π

/-- The state of a monitor. -/
structure MonSys (T C σ π : Type) where
  /-- The lock and the condition variables. -/
  cv : CvSys T C
  /-- The object. -/
  obj : σ
  /-- Where the threads are: in no call, or on their way to a point of one. -/
  pc : T → Option π

/-- What a thread can do. -/
inductive MonOp (κ : Type)
  /-- Make a call. -/
  | start (k : κ)
  /-- Go on in a function of the lock or of a condition variable. -/
  | go
  /-- Go on in the call. -/
  | act

variable {T C σ π κ : Type} [DecidableEq T] [DecidableEq C] (M : Monitor C σ π κ)

/-- The access to the object. -/
def MonAct.body : MonAct C σ π → Option (σ → Except Fault (σ × π))
  | .access f => some f
  | .nested f => some f
  | _ => none

/-- `lock_acquire` and `lock_release` by the thread that holds the lock.  Another thread that tries
to take the lock goes to sleep, before, after and in between. -/
def lockNested (lk : Lock T) (t : T) : Except Fault (Lock T) := do
  let (_, lk) ← lockAcquire lk t
  lockRelease lk t

/-- The next step in a call. -/
def monAct (s : MonSys T C σ π) (t : T) : MonAct C σ π → Except Fault (MonSys T C σ π)
  | .access f => do
    let (obj, p) ← f s.obj
    .ok { s with obj := obj, pc := Function.update s.pc t (some p) }
  | .nested f => do
    let (obj, p) ← f s.obj
    let lk ← lockNested s.cv.lock t
    .ok ⟨{ s.cv with lock := lk }, obj, Function.update s.pc t (some p)⟩
  | .wait c p => do
    let cv ← cvStep s.cv t (.wait c)
    .ok { s with cv := cv, pc := Function.update s.pc t (some p) }
  | .signal c p => do
    let cv ← cvStep s.cv t (.signal c)
    .ok { s with cv := cv, pc := Function.update s.pc t (some p) }
  | .release => do
    let cv ← cvStep s.cv t .lockRelease
    .ok { s with cv := cv, pc := Function.update s.pc t none }

/-- The outcome of a step. -/
def monStep (s : MonSys T C σ π) (t : T) : MonOp κ → Except Fault (MonSys T C σ π)
  | .start k => do
    let cv ← cvStep s.cv t .lockAcquire
    .ok { s with cv := cv, pc := Function.update s.pc t (some (M.start k)) }
  | .go => do
    let cv ← cvStep s.cv t .go
    .ok { s with cv := cv }
  | .act => match s.pc t with
    | none => .ok s
    | some p => monAct s t (M.act p)

/-- When a thread can take the next step in a call. -/
def MonAct.Allowed (cv : CvSys T C) (t : T) : MonAct C σ π → Prop
  | .access _ => cv.pc t = .idle
  | .nested _ => cv.pc t = .idle
  | .wait c _ => (CvOp.wait c).Allowed cv t
  | .signal c _ => (CvOp.signal c).Allowed cv t
  | .release => CvOp.lockRelease.Allowed cv t

/-- When a thread can take a step. -/
def MonOp.Allowed (s : MonSys T C σ π) (t : T) : MonOp κ → Prop
  | .start _ => s.pc t = none ∧ CvOp.lockAcquire.Allowed s.cv t
  | .go => CvOp.go.Allowed s.cv t
  | .act => match s.pc t with
    | none => False
    | some p => (M.act p).Allowed s.cv t

instance (cv : CvSys T C) (t : T) : (a : MonAct C σ π) → Decidable (a.Allowed cv t)
  | .access _ => inferInstanceAs (Decidable (cv.pc t = .idle))
  | .nested _ => inferInstanceAs (Decidable (cv.pc t = .idle))
  | .wait c _ => inferInstanceAs (Decidable ((CvOp.wait c).Allowed cv t))
  | .signal c _ => inferInstanceAs (Decidable ((CvOp.signal c).Allowed cv t))
  | .release => inferInstanceAs (Decidable (CvOp.lockRelease.Allowed cv t))

instance (s : MonSys T C σ π) (t : T) : (op : MonOp κ) → Decidable (op.Allowed M s t)
  | .start _ =>
    haveI : Decidable (s.pc t = none) := decidable_of_iff _ Option.isNone_iff_eq_none
    inferInstanceAs (Decidable (s.pc t = none ∧ CvOp.lockAcquire.Allowed s.cv t))
  | .go => inferInstanceAs (Decidable (CvOp.go.Allowed s.cv t))
  | .act => by
    unfold MonOp.Allowed
    exact match s.pc t with
      | none => inferInstanceAs (Decidable False)
      | some p => inferInstanceAs (Decidable ((M.act p).Allowed s.cv t))

/-- One step that returns. -/
def MonStep (s : MonSys T C σ π) (a : T × MonOp κ) (s' : MonSys T C σ π) : Prop :=
  a.2.Allowed M s a.1 ∧ monStep M s a.1 a.2 = .ok s'

/-- No thread is in a call. -/
def MonSys.init (obj : σ) : MonSys T C σ π := ⟨.init, obj, fun _ => none⟩

/-- A run on a new lock and the given object. -/
def MonRun (obj : σ) (tr : List (MonSys T C σ π × (T × MonOp κ))) (s : MonSys T C σ π) : Prop :=
  Run (fun s => s = .init obj) (MonStep M) tr s

/-! ## The steps one by one -/

/-- Every step that a thread can take. -/
inductive MonMove (s : MonSys T C σ π) (t : T) : MonOp κ → MonSys T C σ π → Prop
  /-- A call is made. -/
  | start (k : κ) (cv : CvSys T C) (hpc : s.pc t = none) (hcv : CvStep s.cv (t, .lockAcquire) cv) :
      MonMove s t (.start k) { s with cv := cv, pc := Function.update s.pc t (some (M.start k)) }
  /-- A step in a function of the lock or of a condition variable. -/
  | go (cv : CvSys T C) (hcv : CvStep s.cv (t, .go) cv) : MonMove s t .go { s with cv := cv }
  /-- An access. -/
  | access (p p' : π) (f : σ → Except Fault (σ × π)) (obj : σ) (hpc : s.pc t = some p)
      (hact : M.act p = .access f) (hidle : s.cv.pc t = .idle) (hf : f s.obj = .ok (obj, p')) :
      MonMove s t .act { s with obj := obj, pc := Function.update s.pc t (some p') }
  /-- An access in a function that takes the lock once more. -/
  | nested (p p' : π) (f : σ → Except Fault (σ × π)) (obj : σ) (lk : Lock T) (hpc : s.pc t = some p)
      (hact : M.act p = .nested f) (hidle : s.cv.pc t = .idle) (hf : f s.obj = .ok (obj, p'))
      (hlk : lockNested s.cv.lock t = .ok lk) :
      MonMove s t .act ⟨{ s.cv with lock := lk }, obj, Function.update s.pc t (some p')⟩
  /-- `cv_wait` is called. -/
  | wait (p p' : π) (c : C) (cv : CvSys T C) (hpc : s.pc t = some p) (hact : M.act p = .wait c p')
      (hcv : CvStep s.cv (t, .wait c) cv) :
      MonMove s t .act { s with cv := cv, pc := Function.update s.pc t (some p') }
  /-- `cv_signal` is called. -/
  | signal (p p' : π) (c : C) (cv : CvSys T C) (hpc : s.pc t = some p)
      (hact : M.act p = .signal c p') (hcv : CvStep s.cv (t, .signal c) cv) :
      MonMove s t .act { s with cv := cv, pc := Function.update s.pc t (some p') }
  /-- The lock is released. -/
  | release (p : π) (cv : CvSys T C) (hpc : s.pc t = some p) (hact : M.act p = .release)
      (hcv : CvStep s.cv (t, .lockRelease) cv) :
      MonMove s t .act { s with cv := cv, pc := Function.update s.pc t none }

variable {M} {s s' : MonSys T C σ π} {t u : T} {op : MonOp κ}

/-- **What a step can do.** -/
theorem MonStep.move (h : MonStep M s (t, op) s') : MonMove M s t op s' := by
  obtain ⟨hallowed, h⟩ := h
  cases op with
  | start k =>
    obtain ⟨cv, hcv, h⟩ := of_bind h
    cases h
    exact .start k cv hallowed.1 ⟨hallowed.2, hcv⟩
  | go =>
    obtain ⟨cv, hcv, h⟩ := of_bind h
    cases h
    exact .go cv ⟨hallowed, hcv⟩
  | act =>
    rw [MonOp.Allowed] at hallowed
    rw [monStep] at h
    cases hpc : s.pc t with
    | none =>
      rw [hpc] at hallowed
      exact hallowed.elim
    | some p =>
      rw [hpc] at hallowed h
      dsimp only at hallowed h
      cases hact : M.act p with
      | access f =>
        rw [hact] at hallowed h
        obtain ⟨⟨obj, p'⟩, hf, h⟩ := of_bind h
        cases h
        exact .access p p' f obj hpc hact hallowed hf
      | nested f =>
        rw [hact] at hallowed h
        obtain ⟨⟨obj, p'⟩, hf, h⟩ := of_bind h
        obtain ⟨lk, hlk, h⟩ := of_bind h
        cases h
        exact .nested p p' f obj lk hpc hact hallowed hf hlk
      | wait c p' =>
        rw [hact] at hallowed h
        obtain ⟨cv, hcv, h⟩ := of_bind h
        cases h
        exact .wait p p' c cv hpc hact ⟨hallowed, hcv⟩
      | signal c p' =>
        rw [hact] at hallowed h
        obtain ⟨cv, hcv, h⟩ := of_bind h
        cases h
        exact .signal p p' c cv hpc hact ⟨hallowed, hcv⟩
      | release =>
        rw [hact] at hallowed h
        obtain ⟨cv, hcv, h⟩ := of_bind h
        cases h
        exact .release p cv hpc hact ⟨hallowed, hcv⟩

omit [DecidableEq C] in
theorem lockNested_steps {cv : CvSys T C} {lk : Lock T} (hidle : cv.pc t = .idle)
    (h : lockNested cv.lock t = .ok lk) :
    ∃ lk', lockAcquire cv.lock t = .ok (true, lk') ∧ lockRelease lk' t = .ok lk ∧
      cv.tried t none true lk' = { cv with lock := lk' } := by
  obtain ⟨⟨b, lk'⟩, hacquire, hrelease⟩ := of_bind h
  have howner := (lockRelease_ok hrelease).1
  have hgoto : cv.tried t none true lk' = { cv with lock := lk' } := by
    rw [CvSys.tried, CvSys.goto, if_pos rfl, ← hidle, update_eq_self]
  cases b with
  | true => exact ⟨lk', hacquire, hrelease, hgoto⟩
  | false =>
    -- a thread that goes to sleep does not own the lock
    have hne : cv.lock.owner ≠ some t := by
      intro ho
      rw [lockAcquire_owner ho] at hacquire
      simp at hacquire
    rw [lockAcquire_other hne] at hacquire
    rcases lockAcquireTry_ok hacquire with ⟨-, -, rfl⟩ | ⟨hb, -⟩
    · exact absurd howner hne
    · cases hb

theorem MonMove.cvRun (h : MonMove M s t op s') {tr : List (CvSys T C × (T × CvOp C))}
    (hrun : CvRun tr s.cv) : ∃ tr', CvRun tr' s'.cv := by
  cases h with
  | access p p' f obj hpc hact hidle hf => exact ⟨tr, hrun⟩
  | nested p p' f obj lk hpc hact hidle hf hlk =>
    obtain ⟨lk', hacquire, hrelease, hgoto⟩ := lockNested_steps hidle hlk
    have hheld : CvStep s.cv (t, .lockAcquire) { s.cv with lock := lk' } := by
      refine ⟨hidle, ?_⟩
      rw [cvStep, hacquire, ok_bind]
      exact congrArg Except.ok hgoto
    have hleft : CvStep { s.cv with lock := lk' } (t, .lockRelease) { s.cv with lock := lk } := by
      refine ⟨hidle, ?_⟩
      rw [cvStep, hrelease, ok_bind]
    exact ⟨_, Run.step (Run.step hrun hheld) hleft⟩
  | start k cv hpc hcv | go cv hcv | wait p p' c cv hpc hact hcv
  | signal p p' c cv hpc hact hcv | release p cv hpc hact hcv => exact ⟨_, Run.step hrun hcv⟩

/-! ## The owner of the lock -/

/-- A thread at this point of the lock's functions holds the lock, if it is in a call. -/
def Pc.keeps : Pc T C → Bool
  | .idle => true
  | .entered _ => true
  | _ => false

/-- Who owns the lock, when the threads of `inside` are in a call. -/
structure MonInv (cv : CvSys T C) (inside : T → Prop) : Prop where
  /-- The owner is in a call, and not where the call has given up the lock. -/
  owner : ∀ t, cv.lock.owner = some t ↔ inside t ∧ (cv.pc t).keeps = true
  /-- A thread that is in no call is in no function of the lock. -/
  outside : ∀ t, ¬ inside t → cv.pc t = .idle
  one : ∀ t, cv.lock.owner = some t → cv.lock.count = 1

section
variable {cv cv' : CvSys T C} {inside inside' : T → Prop} {a : CvOp C}

theorem MonInv.of_self (h : MonInv cv inside) (hmove : CvMove cv t a cv')
    (hinside : ∀ u, u ≠ t → (inside' u ↔ inside u))
    (howner : cv'.lock.owner = some t ↔ inside' t ∧ (cv'.pc t).keeps = true)
    (hout : ¬ inside' t → cv'.pc t = .idle) (hone : cv'.lock.owner = some t → cv'.lock.count = 1) :
    MonInv cv' inside' := by
  refine ⟨fun u => ?_, fun u hu => ?_, fun u hu => ?_⟩
  · by_cases hut : u = t
    · exact hut ▸ howner
    · rw [(hmove.lock.keeps (Ne.symm hut)).1, hmove.other hut, hinside u hut]
      exact h.owner u
  · by_cases hut : u = t
    · subst hut
      exact hout hu
    · rw [hmove.other hut]
      exact h.outside u fun hin => hu ((hinside u hut).2 hin)
  · by_cases hut : u = t
    · subst hut
      exact hone hu
    · obtain ⟨hiff, hcount⟩ := hmove.lock.keeps (Ne.symm hut)
      rw [hcount (hiff.1 hu)]
      exact h.one u (hiff.1 hu)

omit [DecidableEq C] in
theorem tried_owner {q : WaitQueue T} {b : Bool} {lk : Lock T} (k : Option (CvCall T C))
    (ho : cv.lock.owner ≠ some t)
    (htry : lockAcquireTry { cv.lock with wchan := q } t = .ok (b, lk)) :
    (lk.owner = some t ↔ ((cv.tried t k b lk).pc t).keeps = true) ∧
      (lk.owner = some t → lk.count = 1) := by
  rcases lockAcquireTry_ok htry with ⟨rfl, -, rfl⟩ | ⟨rfl, -, -, rfl⟩
  · simp [CvSys.tried, Pc.keeps, ho]
  · simp [CvSys.tried, Pc.keeps]

section
variable (h : MonInv cv inside)
include h

theorem MonInv.acquire (ht : ¬ inside t) (hmove : CvMove cv t .lockAcquire cv')
    (hinside : ∀ u, inside' u ↔ inside u ∨ u = t) : MonInv cv' inside' := by
  have ho : cv.lock.owner ≠ some t := fun ho => ht ((h.owner t).1 ho).1
  have hin : inside' t := (hinside t).2 (.inr rfl)
  cases hmove with
  | acquire b lk hpc hlk =>
    have hmove := CvMove.acquire b lk hpc hlk
    rw [lockAcquire_other ho] at hlk
    obtain ⟨hiff, hone⟩ := tried_owner none ho hlk
    refine h.of_self hmove (fun u hu => ?_) ?_ (fun hn => absurd hin hn) hone
    · rw [hinside]
      simp [hu]
    · exact hiff.trans (by simp [hin])

theorem MonInv.release (ht : inside t) (hmove : CvMove cv t .lockRelease cv')
    (hinside : ∀ u, inside' u ↔ inside u ∧ u ≠ t) : MonInv cv' inside' := by
  have hout : ¬ inside' t := fun hin => ((hinside t).1 hin).2 rfl
  cases hmove with
  | release lk hpc hlk =>
    have hmove := CvMove.release lk hpc hlk
    have ho : cv.lock.owner = some t := (h.owner t).2 ⟨ht, by rw [hpc]; rfl⟩
    rw [lockRelease_one ho (h.one t ho)] at hlk
    cases hlk
    refine h.of_self hmove (fun u hu => ?_) ?_ (fun _ => hpc) fun ho' => nomatch ho'
    · rw [hinside]
      simp [hu]
    · simp [hout]

theorem MonInv.enter (ht : inside t) (hpc : cv.pc t = .idle) {k : CvCall T C}
    (hmove : CvMove cv t a (cvEnter cv t k)) : MonInv (cvEnter cv t k) inside := by
  have ho : cv.lock.owner = some t := (h.owner t).2 ⟨ht, by rw [hpc]; rfl⟩
  refine h.of_self hmove (fun u _ => Iff.rfl) ?_ (fun hn => absurd ht hn) (h.one t)
  rw [cvEnter, CvSys.goto_self]
  exact iff_of_true ho ⟨ht, rfl⟩

theorem MonInv.go (hmove : CvMove cv t .go cv') : MonInv cv' inside := by
  have hin : cv.pc t ≠ .idle → inside t := by
    intro hpc
    by_contra hn
    exact hpc (h.outside t hn)
  -- steps that neither take nor release the lock
  have hsame : (cv.pc t).keeps = false → cv'.lock = cv.lock → (cv'.pc t).keeps = false →
      inside t → MonInv cv' inside := by
    intro hk hlock hk' ht
    have ho : cv.lock.owner ≠ some t := by
      rw [Ne, h.owner, hk]
      simp
    refine h.of_self hmove (fun u _ => Iff.rfl) ?_ (fun hn => absurd ht hn) fun ho' => ?_
    · rw [hlock, hk']
      simpa using ho
    · rw [hlock] at ho'
      exact absurd ho' ho
  have htry : ∀ {q : WaitQueue T} {b : Bool} {lk : Lock T} (k : Option (CvCall T C)),
      (cv.pc t).keeps = false → lockAcquireTry { cv.lock with wchan := q } t = .ok (b, lk) →
      inside t → CvMove cv t .go (cv.tried t k b lk) → MonInv (cv.tried t k b lk) inside := by
    intro q b lk k hk hlk ht hmove
    have ho : cv.lock.owner ≠ some t := by
      rw [Ne, h.owner, hk]
      simp
    obtain ⟨hiff, hone⟩ := tried_owner k ho hlk
    exact h.of_self hmove (fun u _ => Iff.rfl) (hiff.trans (by simp [ht]))
      (fun hn => absurd ht hn) hone
  cases hmove with
  | giveUp k lk hpc hlk =>
    have hmove := CvMove.giveUp k lk hpc hlk
    have ht := hin (by simp [hpc])
    have ho : cv.lock.owner = some t := (h.owner t).2 ⟨ht, by rw [hpc]; rfl⟩
    rw [lockRelease_one ho (h.one t ho)] at hlk
    cases hlk
    refine h.of_self hmove (fun u _ => Iff.rfl) ?_ (fun hn => absurd ht hn) fun ho' => nomatch ho'
    simp [CvSys.gaveUp, Pc.keeps, CvSys.goto]
  | sleep c d hpc =>
    exact hsame (by rw [hpc]; rfl) rfl (by simp [CvSys.slept, Pc.keeps]) (hin (by simp [hpc]))
  | wake c all ws hpc =>
    exact hsame (by rw [hpc]; rfl) rfl (by simp [CvSys.woke, Pc.keeps]) (hin (by simp [hpc]))
  | relock c d hpc hwoken hfree =>
    exact hsame (by rw [hpc]; rfl) rfl (by simp [cvRelock, Pc.keeps]) (hin (by simp [hpc]))
  | unlockWait c d hpc | unlockWake c all ws hpc =>
    exact hsame (by rw [hpc]; rfl) rfl (by simp [cvUnlock, Pc.keeps]) (hin (by simp [hpc]))
  | reacquire k b lk hpc hlk =>
    have hmove := CvMove.reacquire k b lk hpc hlk
    have hk : (cv.pc t).keeps = false := by rw [hpc]; rfl
    have ho : cv.lock.owner ≠ some t := by
      rw [Ne, h.owner, hk]
      simp
    rw [lockAcquire_other ho] at hlk
    exact htry (some k) hk hlk (hin (by simp [hpc])) hmove
  | again k b lk hpc hwoken hlk =>
    have hmove := CvMove.again k b lk hpc hwoken hlk
    exact htry k (by rw [hpc]; rfl) hlk (hin (by simp [hpc])) hmove

end

end

theorem lockNested_one {lk : Lock T} (ho : lk.owner = some t) (hone : lk.count = 1) :
    lockNested lk t = .ok lk := by
  have htwo : toInt (lk.count + 1) = 2 := by
    rw [hone]
    decide
  have hdown : toInt ((2 : Int) - 1) = 1 := by decide
  have hhold : lockHolding { lk with count := 2 } t = true := lockHolding_iff.2 ho
  rw [lockNested, lockAcquire_owner ho, ok_bind, htwo]
  dsimp only
  rw [lockRelease, hhold, assert_true, ok_bind]
  dsimp only
  rw [decide_eq_true (by decide : (0 : Int) < 2), assert_true, ok_bind, hdown,
    if_neg (by decide), ← hone]

/-! ## The rule for monitors -/

variable (M) in
/-- What has to be shown of each point.  An access need only be looked at if it meets `Cond`. -/
structure MonSpec (Good : σ → Prop) (Know Cond : π → σ → Prop) : Prop where
  /-- The lock has been taken for a call. -/
  start : ∀ k x, Good x → Know (M.start k) x
  /-- An access. -/
  access : ∀ p p' f x x', (M.act p).body = some f → Know p x → Cond p x → f x = .ok (x', p') →
    Know p' x'
  /-- `cv_wait` gives the lock up, and takes it again. -/
  wait : ∀ p p' c, M.act p = .wait c p' → (∀ x, Know p x → Good x) ∧ ∀ x, Good x → Know p' x
  /-- So does `cv_signal`. -/
  signal : ∀ p p' c, M.act p = .signal c p' → (∀ x, Know p x → Good x) ∧ ∀ x, Good x → Know p' x
  /-- The lock is released. -/
  release : ∀ p x, M.act p = .release → Know p x → Good x

/-- The condition, for a step. -/
def MonCond (Cond : π → σ → Prop) (s : MonSys T C σ π) (a : T × MonOp κ) : Prop :=
  a.2 = .act → ∀ p, s.pc a.1 = some p → Cond p s.obj

/-- What is known in a state. -/
structure MonSafe (Good : σ → Prop) (Know : π → σ → Prop) (cv : CvSys T C) (obj : σ)
    (pc : T → Option π) : Prop where
  mon : MonInv cv fun t => pc t ≠ none
  holder : ∀ t p, pc t = some p → cv.pc t = .idle → Know p obj
  free : (∀ t, pc t ≠ none → cv.pc t ≠ .idle) → Good obj
  /-- What a thread will know when it has the lock again. -/
  resume : ∀ t p, pc t = some p → cv.pc t ≠ .idle → ∀ x, Good x → Know p x

section
variable {Good : σ → Prop} {Know Cond : π → σ → Prop} {cv cv' : CvSys T C} {obj : σ}
    {pc : T → Option π}

theorem CvMove.go_ne_idle (h : CvMove cv t .go cv') : cv.pc t ≠ .idle := by
  cases h <;> simp [*]

theorem CvMove.go_not_entered (h : CvMove cv t .go cv') (k : CvCall T C) :
    cv'.pc t ≠ .entered k := by
  cases h with
  | giveUp k lk hpc hlk => simp [CvSys.gaveUp]
  | sleep c d hpc => simp [CvSys.slept]
  | wake c all ws hpc => simp [CvSys.woke]
  | relock c d hpc hwoken hfree => simp [cvRelock]
  | unlockWait c d hpc => simp [cvUnlock]
  | unlockWake c all ws hpc => simp [cvUnlock]
  | reacquire k b lk hpc hlk => cases b <;> simp [CvSys.tried]
  | again k b lk hpc hwoken hlk => cases b <;> simp [CvSys.tried]

section
variable (h : MonSafe Good Know cv obj pc)

omit [DecidableEq T] [DecidableEq C]
include h

theorem MonSafe.owner (hpc : pc t ≠ none) (hidle : cv.pc t = .idle) : cv.lock.owner = some t :=
  (h.mon.owner t).2 ⟨hpc, by rw [hidle]; rfl⟩

theorem MonSafe.unique (ht : pc t ≠ none) (hti : cv.pc t = .idle)
    (hu : pc u ≠ none) (hui : cv.pc u = .idle) : u = t :=
  Option.some.inj ((h.owner hu hui).symm.trans (h.owner ht hti))

/-- What follows from all that can be known of the object holds in every state. -/
theorem MonSafe.holds {P : Prop} (hgood : Good obj → P) (hknow : ∀ p, Know p obj → P) : P := by
  by_cases hholder : ∃ t p, pc t = some p ∧ cv.pc t = .idle
  · obtain ⟨t, p, hp, hidle⟩ := hholder
    exact hknow p (h.holder t p hp hidle)
  · refine hgood (h.free fun t ht hidle => hholder ?_)
    obtain ⟨p, hp⟩ := Option.ne_none_iff_exists'.1 ht
    exact ⟨t, p, hp, hidle⟩

theorem MonSafe.know {p : π} (hp : pc t = some p) (hgood : Good obj) : Know p obj := by
  by_cases hidle : cv.pc t = .idle
  · exact h.holder t p hp hidle
  · exact h.resume t p hp hidle obj hgood

end

theorem MonSafe.start (h : MonSafe Good Know cv obj pc) (hspec : MonSpec M Good Know Cond) {k : κ}
    (hpc : pc t = none) (hcv : CvMove cv t .lockAcquire cv') :
    MonSafe Good Know cv' obj (update pc t (some (M.start k))) := by
  have hmon : MonInv cv' fun u => update pc t (some (M.start k)) u ≠ none := by
    refine h.mon.acquire (by simp [hpc]) hcv fun u => ?_
    by_cases hut : u = t
    · subst hut
      simp
    · rw [update_of_ne hut]
      simp [hut]
  refine ⟨hmon, fun u p hp hidle => ?_, fun hfree => ?_, fun u p hp hidle x hx => ?_⟩
  · by_cases hut : u = t
    · subst hut
      rw [update_self] at hp
      cases hp
      -- the lock was free, for the thread is its owner now
      have hown : cv'.lock.owner = some u := (hmon.owner u).2 ⟨by simp, by rw [hidle]; rfl⟩
      refine hspec.start k _ (h.free fun w hw hwi => ?_)
      have hwu : w ≠ u := by
        rintro rfl
        exact hw hpc
      have := ((hcv.lock.keeps (Ne.symm hwu)).1).2 (h.owner hw hwi)
      exact hwu (Option.some.inj (this.symm.trans hown))
    · rw [update_of_ne hut] at hp
      rw [hcv.other hut] at hidle
      exact h.holder u p hp hidle
  · refine h.free fun w hw hwi => ?_
    have hwt : w ≠ t := by
      rintro rfl
      exact hw hpc
    exact hfree w (by rwa [update_of_ne hwt]) ((hcv.other hwt).trans hwi)
  · by_cases hut : u = t
    · subst hut
      rw [update_self] at hp
      exact Option.some.inj hp ▸ hspec.start k x hx
    · rw [update_of_ne hut] at hp
      rw [hcv.other hut] at hidle
      exact h.resume u p hp hidle x hx

theorem MonSafe.go (h : MonSafe Good Know cv obj pc) (hcv : CvMove cv t .go cv') :
    MonSafe Good Know cv' obj pc := by
  have hmon : MonInv cv' fun u => pc u ≠ none := h.mon.go hcv
  refine ⟨hmon, fun u p hp hidle => ?_, fun hfree => ?_, fun u p hp hidle x hx => ?_⟩
  · by_cases hut : u = t
    · subst hut
      -- the lock has been taken again, so it was free
      have hown : cv'.lock.owner = some u := (hmon.owner u).2 ⟨by simp [hp], by rw [hidle]; rfl⟩
      refine h.resume u p hp hcv.go_ne_idle _ (h.free fun w hw hwi => ?_)
      have hwu : w ≠ u := by
        rintro rfl
        exact hcv.go_ne_idle hwi
      have := ((hcv.lock.keeps (Ne.symm hwu)).1).2 (h.owner hw hwi)
      exact hwu (Option.some.inj (this.symm.trans hown))
    · rw [hcv.other hut] at hidle
      exact h.holder u p hp hidle
  · refine h.free fun w hw hwi => ?_
    have hwt : w ≠ t := by
      rintro rfl
      exact hcv.go_ne_idle hwi
    exact hfree w hw ((hcv.other hwt).trans hwi)
  · by_cases hut : u = t
    · subst hut
      exact h.resume u p hp hcv.go_ne_idle x hx
    · rw [hcv.other hut] at hidle
      exact h.resume u p hp hidle x hx

omit [DecidableEq C] in
theorem MonSafe.access (h : MonSafe Good Know cv obj pc) {p p' : π} {x : σ} (hpc : pc t = some p)
    (hidle : cv.pc t = .idle) (hknow : Know p' x) :
    MonSafe Good Know cv x (update pc t (some p')) := by
  have hin : pc t ≠ none := by simp [hpc]
  have hsame : ∀ u, update pc t (some p') u ≠ none ↔ pc u ≠ none := by
    intro u
    by_cases hut : u = t
    · subst hut
      simp [hpc]
    · rw [update_of_ne hut]
  refine ⟨⟨fun u => ?_, fun u hu => h.mon.outside u fun hu' => hu ((hsame u).2 hu'), h.mon.one⟩,
    fun u q hq hui => ?_, fun hfree => ?_, fun u q hq hui y hy => ?_⟩
  · rw [hsame]
    exact h.mon.owner u
  · have hut : u = t := h.unique hin hidle ((hsame u).1 (by simp [hq])) hui
    subst hut
    rw [update_self] at hq
    exact Option.some.inj hq ▸ hknow
  · exact absurd hidle (hfree t ((hsame t).2 hin))
  · have hut : u ≠ t := by
      rintro rfl
      exact hui hidle
    rw [update_of_ne hut] at hq
    exact h.resume u q hq hui y hy

/-- A thread gives the lock up, in a function of a condition variable or at the end of a call. -/
theorem MonSafe.giveUp (h : MonSafe Good Know cv obj pc) {q : Option π} {a : CvOp C}
    (hpc : pc t ≠ none) (hidle : cv.pc t = .idle) (hcv : CvMove cv t a cv')
    (hmon : MonInv cv' fun u => update pc t q u ≠ none) (hq : q ≠ none → cv'.pc t ≠ .idle)
    (hgood : Good obj) (hresume : ∀ p, q = some p → ∀ x, Good x → Know p x) :
    MonSafe Good Know cv' obj (update pc t q) := by
  refine ⟨hmon, fun u p hp hui => ?_, fun _ => hgood, fun u p hp hui x hx => ?_⟩
  · by_cases hut : u = t
    · subst hut
      rw [update_self] at hp
      exact absurd hui (hq (by simp [hp]))
    · rw [update_of_ne hut] at hp
      rw [hcv.other hut] at hui
      exact absurd (h.unique hpc hidle (by simp [hp]) hui) hut
  · by_cases hut : u = t
    · subst hut
      rw [update_self] at hp
      exact hresume p hp x hx
    · rw [update_of_ne hut] at hp
      rw [hcv.other hut] at hui
      exact h.resume u p hp hui x hx

theorem MonSafe.enter (h : MonSafe Good Know cv obj pc) {p p' : π} {a : CvOp C} {k : CvCall T C}
    (hpc : pc t = some p) (hidle : cv.pc t = .idle) (hcv : CvMove cv t a (cvEnter cv t k))
    (hgood : Good obj) (hresume : ∀ x, Good x → Know p' x) :
    MonSafe Good Know (cvEnter cv t k) obj (update pc t (some p')) := by
  have hin : pc t ≠ none := by simp [hpc]
  have hmon := h.mon.enter hin hidle hcv
  have hsame : (fun u => update pc t (some p') u ≠ none) = fun u => pc u ≠ none := by
    funext u
    by_cases hut : u = t
    · subst hut
      simp [hpc]
    · rw [update_of_ne hut]
  refine h.giveUp hin hidle hcv (hsame ▸ hmon) (fun _ => ?_) hgood fun q hq => ?_
  · simp [cvEnter]
  · exact Option.some.inj hq ▸ hresume

/-- **A step keeps what is known.** -/
theorem MonSafe.step (h : MonSafe Good Know s.cv s.obj s.pc) (hspec : MonSpec M Good Know Cond)
    (hmove : MonMove M s t op s') (hcond : MonCond Cond s (t, op)) :
    MonSafe Good Know s'.cv s'.obj s'.pc := by
  cases hmove with
  | start k cv hpc hcv => exact h.start hspec hpc hcv.move
  | go cv hcv => exact h.go hcv.move
  | access p p' f obj hpc hact hidle hf =>
    have hknow := h.holder t p hpc hidle
    have hbody : (M.act p).body = some f := congrArg MonAct.body hact
    exact h.access hpc hidle (hspec.access p p' f _ _ hbody hknow (hcond rfl p hpc) hf)
  | nested p p' f obj lk hpc hact hidle hf hlk =>
    have hknow := h.holder t p hpc hidle
    have hbody : (M.act p).body = some f := congrArg MonAct.body hact
    have howner := h.owner (by simp [hpc]) hidle
    rw [lockNested_one howner (h.mon.one t howner)] at hlk
    cases hlk
    exact h.access hpc hidle (hspec.access p p' f _ _ hbody hknow (hcond rfl p hpc) hf)
  | wait p p' c cv hpc hact hcv =>
    obtain ⟨hgood, hresume⟩ := hspec.wait p p' c hact
    cases hcv.move with
    | wait c hidle hfree =>
      exact h.enter hpc hidle (.wait c hidle hfree) (hgood _ (h.holder t p hpc hidle)) hresume
  | signal p p' c cv hpc hact hcv =>
    obtain ⟨hgood, hresume⟩ := hspec.signal p p' c hact
    cases hcv.move with
    | signal c hidle hfree =>
      exact h.enter hpc hidle (.signal c hidle hfree) (hgood _ (h.holder t p hpc hidle)) hresume
  | release p cv hpc hact hcv =>
    have hin : s.pc t ≠ none := by simp [hpc]
    have hidle : s.cv.pc t = .idle := by
      cases hcv.move
      assumption
    refine h.giveUp hin hidle hcv.move (h.mon.release hin hcv.move fun u => ?_)
      (fun hq => absurd rfl hq)
      (hspec.release p _ hact (h.holder t p hpc hidle)) fun q hq => nomatch hq
    by_cases hut : u = t
    · subst hut
      simp
    · rw [update_of_ne hut]
      simp [hut]

omit [DecidableEq T] [DecidableEq C] in
theorem MonSafe.init (hgood : Good obj) :
    MonSafe Good Know (.init : CvSys T C) obj (fun _ => none) where
  mon := ⟨fun t => by simp [CvSys.init, lockCreate], fun _ _ => rfl, fun _ ho => nomatch ho⟩
  holder _ _ hp := nomatch hp
  free _ := hgood
  resume _ _ hp := nomatch hp

/-- **The rule for monitors.** -/
theorem MonSpec.run (hspec : MonSpec M Good Know Cond) (hgood : Good obj)
    {tr : List (MonSys T C σ π × (T × MonOp κ))} (hrun : MonRun M obj tr s)
    (hcond : ∀ e ∈ tr, MonCond Cond e.1 e.2) : MonSafe Good Know s.cv s.obj s.pc := by
  refine Run.invariant_of (I := fun s => MonSafe Good Know s.cv s.obj s.pc) ?_ ?_ hrun hcond
  · rintro _ rfl
    exact .init hgood
  · exact fun s a s' hi hc hstep => hi.step hspec hstep.move hc

end

variable (M) in
/-- The state after a step. -/
def monNext (s : MonSys T C σ π) (t : T) (op : MonOp κ) : MonSys T C σ π := (monStep M s t op).okD s

theorem monRun_of_history {obj : σ} (as : List (T × MonOp κ))
    (hsteps : ∀ e ∈ (Run.history (fun s a => monNext M s a.1 a.2) (.init obj) as).1,
      e.2.2.Allowed M e.1 e.2.1 ∧ (monStep M e.1 e.2.1 e.2.2).isOk = true) :
    MonRun M obj (Run.history (fun s a => monNext M s a.1 a.2) (.init obj) as).1
      (Run.history (fun s a => monNext M s a.1 a.2) (.init obj) as).2 := by
  rw [MonRun]
  refine Run.of_history (fun s a => monNext M s a.1 a.2) ?_ as fun e he => ?_
  · rfl
  obtain ⟨hallowed, hok⟩ := hsteps e he
  exact ⟨hallowed, Except.eq_ok_okD hok _⟩

end JinxOS
