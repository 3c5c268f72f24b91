import Mathlib.Tactic.FinCases
import JinxOS.Synch.Cv

/-!
# No signal is lost

A thread that waits has released the lock before it is on the wait channel, and a signaller could
look at the channel in between.  It does not, because `cv_wait` holds `cv_splock` from before the
release until it is on the channel, and a signaller takes `cv_splock` first.

So while a thread holds `cv_splock` as a signaller, the sleepers on the channel are all the threads
that wait, in the order in which they released the lock, and they stay what they were when it took
`cv_splock` (`Pc.Found`).  `cvRun_signal` concludes that `cv_signal` wakes the one that has waited
longest, and `cv_broadcast` all of them.
-/

namespace JinxOS

open Function (update_self update_of_ne update)

variable {T C : Type} [DecidableEq T] [DecidableEq C]

/-- The condition variable whose `cv_splock` a thread holds. -/
def Pc.holds : Pc T C → Option C
  | .entered k => some k.cv
  | .released k => some k.cv
  | .relocked c _ => some c
  | .woke c _ _ => some c
  | _ => none

/-- `cv_splock` is held by the thread that is in its section. -/
def Exclusive (cv : C → Cv T) (pc : T → Pc T C) : Prop :=
  ∀ c t, (cv c).splock = some t ↔ (pc t).holds = some c

variable {waiting asleep : List T} {tr : List (CvSys T C × (T × CvOp C))}

section
variable {cv : C → Cv T} {pc : T → Pc T C} {c : C} {t u : T} {p : Pc T C}

omit [DecidableEq T] [DecidableEq C] in
theorem Exclusive.unique (h : Exclusive cv pc) (ht : (pc t).holds = some c)
    (hu : (pc u).holds = some c) : t = u := by
  have ht' := (h c t).2 ht
  have hu' := (h c u).2 hu
  exact Option.some.inj (ht'.symm.trans hu')

omit [DecidableEq C] in
theorem Exclusive.stay (h : Exclusive cv pc) (hp : p.holds = (pc u).holds) :
    Exclusive cv (update pc u p) := by
  intro c t
  rw [h c t]
  by_cases htu : t = u
  · subst htu
    rw [update_self, hp]
  · rw [update_of_ne htu]

theorem Exclusive.lock (h : Exclusive cv pc) (hfree : (cv c).splock = none)
    (hu : (pc u).holds = none) (q : WaitQueue T) (hp : p.holds = some c) :
    Exclusive (update cv c ⟨some u, q⟩) (update pc u p) := by
  intro c' t
  by_cases hc : c' = c <;> by_cases htu : t = u
  · subst hc htu
    simp [hp]
  · subst hc
    have ht := h c' t
    simp only [hfree] at ht
    simp only [update_self, update_of_ne htu, Option.some.injEq]
    exact ⟨fun he => absurd he.symm htu, fun he => by simp [he] at ht⟩
  · subst htu
    have ht := h c' t
    simp only [hu] at ht
    simp only [update_self, update_of_ne hc, hp, Option.some.injEq]
    exact ⟨fun he => by simp [he] at ht, fun he => absurd he.symm hc⟩
  · simp only [update_of_ne hc, update_of_ne htu]
    exact h c' t

theorem Exclusive.unlock (h : Exclusive cv pc) (hu : (pc u).holds = some c) (q : WaitQueue T)
    (hp : p.holds = none) : Exclusive (update cv c ⟨none, q⟩) (update pc u p) := by
  intro c' t
  by_cases hc : c' = c <;> by_cases htu : t = u
  · subst hc htu
    simp [hp]
  · subst hc
    have hne : (pc t).holds ≠ some c' := fun ht => htu (h.unique ht hu)
    simp [update_of_ne htu, hne]
  · subst htu
    have hne : (cv c').splock ≠ some t := by
      intro ht
      have hc' := (h c' t).1 ht
      exact hc (Option.some.inj (hc'.symm.trans hu))
    simp [update_of_ne hc, hp, hne]
  · simp only [update_of_ne hc, update_of_ne htu]
    exact h c' t

omit [DecidableEq T] in
theorem Exclusive.queue (h : Exclusive cv pc) (q : WaitQueue T) :
    Exclusive (update cv c ⟨(cv c).splock, q⟩) pc := by
  intro c' t
  by_cases hc : c' = c
  · subst hc
    rw [update_self]
    exact h c' t
  · rw [update_of_ne hc]
    exact h c' t

end

/-! ## The threads that wait -/

/-- What a thread at a point knows about a condition variable whose `cv_splock` it holds: who waits,
and who sleeps on the channel. -/
def Pc.Found (t : T) (waiting asleep : List T) : Pc T C → Prop
  | .entered (.wake _ _ ws) => waiting = asleep ∧ waiting = ws
  | .released (.wait _ _) => waiting = asleep ++ [t]
  | .released (.wake _ _ ws) => waiting = asleep ∧ waiting = ws
  | _ => waiting = asleep

section
variable {t u : T} {p : Pc T C}

omit [DecidableEq T] [DecidableEq C]

theorem Pc.Found.cases (h : p.Found u waiting asleep) :
    waiting = asleep ∨ waiting = asleep ++ [u] ∧ ∃ c d, p = .released (.wait c d) := by
  cases p with
  | entered k =>
    cases k with
    | wait c d => exact .inl h
    | wake c all ws => exact .inl h.1
  | released k =>
    cases k with
    | wait c d => exact .inr ⟨h, c, d, rfl⟩
    | wake c all ws => exact .inl h.1
  | _ => exact .inl h

theorem Pc.Found.of_free (h : p.Found t waiting asleep) (hp : p.holds = none) :
    waiting = asleep := by
  obtain he | ⟨-, c, d, rfl⟩ := h.cases
  · exact he
  · simp [Pc.holds] at hp

theorem Pc.Found.mem (h : p.Found u waiting asleep) (ht : t ∈ waiting) :
    t ∈ asleep ∨ t = u ∧ ∃ c d, p = .released (.wait c d) := by
  obtain rfl | ⟨rfl, hp⟩ := h.cases
  · exact .inl ht
  · rw [List.mem_append, List.mem_singleton] at ht
    exact ht.imp_right fun he => ⟨he, hp⟩

theorem Pc.Found.of_asleep (h : p.Found u waiting asleep) (ht : t ∈ asleep) : t ∈ waiting := by
  obtain rfl | ⟨rfl, -⟩ := h.cases
  · exact ht
  · exact List.mem_append_left _ ht

end

/-- The sleepers are the threads that wait, but for the one that is about to go to sleep. -/
structure SignalInv (s : CvSys T C) : Prop where
  exclusive : Exclusive s.cv s.pc
  held : ∀ c t, (s.pc t).holds = some c → (s.pc t).Found t (s.waiting c) (s.cv c).wchan.asleep
  /-- Outside of the sections the sleepers are the threads that wait. -/
  free : ∀ c, (s.cv c).splock = none → s.waiting c = (s.cv c).wchan.asleep

section
variable {s s' : CvSys T C} {c : C} {t u : T} {op : CvOp C}

theorem Exclusive.step (h : Exclusive s.cv s.pc) (hmove : CvMove s u op s') :
    Exclusive s'.cv s'.pc := by
  cases hmove with
  | acquire b lk hpc hlk | reacquire k b lk hpc hlk | again k b lk hpc hwoken hlk =>
    cases b <;> exact h.stay (by simp [hpc, Pc.holds])
  | release lk hpc hlk => exact h
  | wait c hpc hfree | signal c hpc hfree | broadcast c hpc hfree
  | relock c d hpc hwoken hfree => exact h.lock hfree (by simp [hpc, Pc.holds]) _ rfl
  | giveUp k lk hpc hlk => exact h.stay (by simp [hpc, Pc.holds])
  | sleep c d hpc | unlockWait c d hpc | unlockWake c all ws hpc =>
    exact h.unlock (by simp [hpc, Pc.holds, CvCall.cv]) _ rfl
  | wake c all ws hpc => exact (h.queue _).stay (by simp [hpc, Pc.holds, CvCall.cv])

/-- A thread leaves a condition variable alone if it is not in its section before or after a step.
-/
theorem CvMove.untouched (h : CvMove s u op s') (hbefore : (s.pc u).holds ≠ some c)
    (hafter : (s'.pc u).holds ≠ some c) : s'.cv c = s.cv c ∧ s'.waiting c = s.waiting c := by
  cases h with
  | acquire b lk hpc hlk | release lk hpc hlk | reacquire k b lk hpc hlk
  | again k b lk hpc hwoken hlk => exact ⟨rfl, rfl⟩
  | wait c' hpc hfree | signal c' hpc hfree | broadcast c' hpc hfree =>
    have hne : c ≠ c' := fun he => hafter (by simp [cvEnter, Pc.holds, CvCall.cv, he])
    exact ⟨update_of_ne hne .., rfl⟩
  | giveUp k lk hpc hlk =>
    have hne : c ≠ k.cv := fun he => hbefore (by simp [hpc, Pc.holds, he])
    cases k with
    | wait c' d => exact ⟨rfl, update_of_ne hne ..⟩
    | wake c' all ws => exact ⟨rfl, rfl⟩
  | sleep c' d hpc =>
    have hne : c ≠ c' := fun he => hbefore (by simp [hpc, Pc.holds, CvCall.cv, he])
    exact ⟨update_of_ne hne .., rfl⟩
  | wake c' all ws hpc =>
    have hne : c ≠ c' := fun he => hbefore (by simp [hpc, Pc.holds, CvCall.cv, he])
    exact ⟨update_of_ne hne .., update_of_ne hne ..⟩
  | relock c' d hpc hwoken hfree =>
    have hne : c ≠ c' := fun he => hafter (by simp [cvRelock, Pc.holds, he])
    exact ⟨update_of_ne hne .., rfl⟩
  | unlockWait c' d hpc | unlockWake c' all ws hpc =>
    have hne : c ≠ c' := fun he => hbefore (by simp [hpc, Pc.holds, he])
    exact ⟨update_of_ne hne .., rfl⟩

/-- A thread leaves the section of one condition variable before it enters that of another. -/
theorem CvMove.leaves (h : CvMove s u op s') (hbefore : (s.pc u).holds = some c)
    (hafter : (s'.pc u).holds ≠ some c) : (s'.pc u).holds = none := by
  cases h with
  | giveUp k lk hpc hlk =>
    exact absurd hbefore (by simpa [hpc, CvSys.gaveUp, Pc.holds] using hafter)
  | sleep c' d hpc => simp [CvSys.slept, Pc.holds]
  | wake c' all ws hpc =>
    exact absurd hbefore (by simpa [hpc, CvSys.woke, Pc.holds, CvCall.cv] using hafter)
  | unlockWait c' d hpc => simp [cvUnlock, Pc.holds]
  | unlockWake c' all ws hpc => simp [cvUnlock, Pc.holds]
  | _ => simp_all [Pc.holds]

/-- The threads that a signaller makes runnable, if the sleepers are the threads that wait. -/
theorem CvSys.woke_spec (t : T) (all : Bool) (ws : List T)
    (h : s.waiting c = (s.cv c).wchan.asleep) :
    ((s.woke t c all ws).cv c).wchan.asleep = (if all then [] else (s.waiting c).tail) ∧
      ((s.woke t c all ws).cv c).wchan.woken = (s.cv c).wchan.woken ++
        (if all then s.waiting c else (s.waiting c).head?.toList) ∧
      (s.woke t c all ws).waiting c = if all then [] else (s.waiting c).tail := by
  cases all with
  | true =>
    have hdiff : ((s.cv c).wchan.asleep).diff (s.cv c).wchan.asleep = [] := by
      induction (s.cv c).wchan.asleep with
      | nil => rfl
      | cons w ws ih => simpa using ih
    simp [CvSys.woke, CvSys.setCv, CvSys.goto, WaitQueue.wakeAll, h, hdiff]
  | false =>
    have hdiff : ((s.cv c).wchan.asleep).diff (s.cv c).wchan.asleep.head?.toList =
        (s.cv c).wchan.asleep.tail := by
      cases (s.cv c).wchan.asleep <;> simp
    simp [CvSys.woke, CvSys.setCv, CvSys.goto, h, hdiff]

theorem SignalInv.self (h : SignalInv s) (hmove : CvMove s u op s')
    (hc : (s.pc u).holds = some c ∨ (s'.pc u).holds = some c) :
    (s'.pc u).Found u (s'.waiting c) (s'.cv c).wchan.asleep := by
  cases hmove with
  | acquire b lk hpc hlk | reacquire k b lk hpc hlk | again k b lk hpc hwoken hlk =>
    cases b <;> simp [hpc, CvSys.tried, Pc.holds] at hc
  | release lk hpc hlk => simp [hpc, Pc.holds] at hc
  | wait c' hpc hfree | signal c' hpc hfree | broadcast c' hpc hfree =>
    obtain rfl : c' = c := by simpa [hpc, cvEnter, Pc.holds, CvCall.cv] using hc
    have hwaiting := h.free c' hfree
    simpa [cvEnter, CvSys.setCv, CvSys.goto, CvCall.cv, Pc.Found] using hwaiting
  | giveUp k lk hpc hlk =>
    have hk : k.cv = c := by simpa [hpc, CvSys.gaveUp, Pc.holds] using hc
    have hfound := h.held c u (by simp [hpc, Pc.holds, hk])
    rw [hpc] at hfound
    cases k with
    | wait c' d =>
      obtain rfl : c' = c := hk
      have hwaiting : s.waiting c' = (s.cv c').wchan.asleep := hfound
      simp [CvSys.gaveUp, CvSys.goto, Pc.Found, hwaiting]
    | wake c' all ws => simpa [CvSys.gaveUp, CvSys.goto, Pc.Found] using hfound
  | sleep c' d hpc =>
    obtain rfl : c' = c := by simpa [hpc, CvSys.slept, Pc.holds, CvCall.cv] using hc
    have hfound := h.held c' u (by simp [hpc, Pc.holds, CvCall.cv])
    rw [hpc] at hfound
    simpa [CvSys.slept, CvSys.setCv, CvSys.goto, Pc.Found] using hfound
  | wake c' all ws hpc =>
    obtain rfl : c' = c := by simpa [hpc, CvSys.woke, Pc.holds, CvCall.cv] using hc
    have hfound := h.held c' u (by simp [hpc, Pc.holds, CvCall.cv])
    rw [hpc] at hfound
    have hwaiting : s.waiting c' = (s.cv c').wchan.asleep := hfound.1
    obtain ⟨hasleep, -, hleft⟩ := CvSys.woke_spec u all ws hwaiting
    simp only [CvSys.woke, CvSys.goto_self, Pc.Found]
    exact hleft.trans hasleep.symm
  | relock c' d hpc hwoken hfree =>
    obtain rfl : c' = c := by simpa [hpc, cvRelock, Pc.holds] using hc
    have hwaiting := h.free c' hfree
    simpa [cvRelock, CvSys.setCv, CvSys.goto, Pc.Found] using hwaiting
  | unlockWait c' d hpc | unlockWake c' all ws hpc =>
    obtain rfl : c' = c := by simpa [hpc, cvUnlock, Pc.holds] using hc
    have hfound := h.held c' u (by simp [hpc, Pc.holds])
    rw [hpc] at hfound
    simpa [cvUnlock, CvSys.setCv, CvSys.goto, CvCall.cv, Pc.Found] using hfound

theorem SignalInv.step (h : SignalInv s) (hmove : CvMove s u op s') : SignalInv s' := by
  have hexclusive := h.exclusive.step hmove
  refine ⟨hexclusive, fun c t ht => ?_, fun c hfree => ?_⟩
  · by_cases htu : t = u
    · subst htu
      exact h.self hmove (.inr ht)
    · -- the thread in the section is another one, and it was there before
      have hpc := hmove.other htu
      have htold : (s.pc t).holds = some c := hpc ▸ ht
      obtain ⟨hcv, hwaiting⟩ := hmove.untouched
        (fun hu => htu (h.exclusive.unique htold hu)) (fun hu => htu (hexclusive.unique ht hu))
      rw [hpc, hcv, hwaiting]
      exact h.held c t htold
  · have hafter : (s'.pc u).holds ≠ some c := fun hu => by
      simp [(hexclusive c u).2 hu] at hfree
    by_cases hbefore : (s.pc u).holds = some c
    · exact (h.self hmove (.inl hbefore)).of_free (hmove.leaves hbefore hafter)
    · obtain ⟨hcv, hwaiting⟩ := hmove.untouched hbefore hafter
      rw [hcv] at hfree ⊢
      rw [hwaiting]
      exact h.free c hfree

theorem CvMove.waiting_mem (h : CvMove s u op s') (ht : t ∈ s'.waiting c) :
    t ∈ s.waiting c ∨ t = u ∧ ∃ d, s.pc u = .entered (.wait c d) := by
  cases h with
  | giveUp k lk hpc hlk =>
    cases k with
    | wait c' d =>
      by_cases hc : c = c'
      · subst hc
        have hwaiting : (s.gaveUp u (.wait c d) lk).waiting c = s.waiting c ++ [u] := by
          simp [CvSys.gaveUp, CvSys.goto]
        rw [hwaiting, List.mem_append, List.mem_singleton] at ht
        exact ht.imp_right fun he => ⟨he, d, hpc⟩
      · have hwaiting : (s.gaveUp u (.wait c' d) lk).waiting c = s.waiting c := by
          simp [CvSys.gaveUp, CvSys.goto, update_of_ne hc]
        exact .inl (hwaiting ▸ ht)
    | wake c' all ws => exact .inl ht
  | wake c' all ws hpc =>
    by_cases hc : c = c'
    · subst hc
      refine .inl (List.diff_subset _ (if all then (s.cv c).wchan.asleep else
        (s.cv c).wchan.asleep.head?.toList) ?_)
      simpa [CvSys.woke, CvSys.setCv, CvSys.goto] using ht
    · have hwaiting : (s.woke u c' all ws).waiting c = s.waiting c := by
        simp [CvSys.woke, CvSys.setCv, CvSys.goto, update_of_ne hc]
      exact .inl (hwaiting ▸ ht)
  | _ => exact .inl ht

/-! ## The sleepers -/

/-- The threads on the channels. -/
structure SleepInv (s : CvSys T C) : Prop where
  pc : ∀ c t, (s.cv c).wchan.Inside t → ∃ d, s.pc t = .asleep c d
  nodup : ∀ c, ((s.cv c).wchan.asleep ++ (s.cv c).wchan.woken).Nodup

omit [DecidableEq T] [DecidableEq C] in
/-- At most the channel `c` changes, and the thread that takes the step is on no other one. -/
theorem SleepInv.of_channel (h : SleepInv s) (hother : ∀ t, t ≠ u → s'.pc t = s.pc t)
    (hwchan : ∀ c', c' ≠ c → (s'.cv c').wchan = (s.cv c').wchan)
    (hu : ∀ c' d, s.pc u = .asleep c' d → c' = c)
    (hpc : ∀ t, (s'.cv c).wchan.Inside t → ∃ d, s'.pc t = .asleep c d)
    (hnodup : ((s'.cv c).wchan.asleep ++ (s'.cv c).wchan.woken).Nodup) : SleepInv s' := by
  refine ⟨fun c' t ht => ?_, fun c' => ?_⟩
  · by_cases hc : c' = c
    · subst hc
      exact hpc t ht
    · rw [hwchan c' hc] at ht
      obtain ⟨d, hd⟩ := h.pc c' t ht
      have htu : t ≠ u := by
        rintro rfl
        exact hc (hu c' d hd)
      exact ⟨d, (hother t htu).trans hd⟩
  · by_cases hc : c' = c
    · subst hc
      exact hnodup
    · rw [hwchan c' hc]
      exact h.nodup c'

omit [DecidableEq T] [DecidableEq C] in
theorem SleepInv.stay (h : SleepInv s) (hother : ∀ t, t ≠ u → s'.pc t = s.pc t)
    (hwchan : ∀ c, (s'.cv c).wchan = (s.cv c).wchan) (hu : ∀ c d, s.pc u ≠ .asleep c d) :
    SleepInv s' := by
  refine ⟨fun c t ht => ?_, fun c => ?_⟩
  · rw [hwchan] at ht
    obtain ⟨d, hd⟩ := h.pc c t ht
    have htu : t ≠ u := by
      rintro rfl
      exact hu c d hd
    exact ⟨d, (hother t htu).trans hd⟩
  · rw [hwchan]
    exact h.nodup c

omit [DecidableEq T] in
theorem wchan_setCv {x : Cv T} (hx : x.wchan = (s.cv c).wchan) (c' : C) :
    ((s.setCv c x).cv c').wchan = (s.cv c').wchan := by
  by_cases hc : c' = c
  · subst hc
    rw [CvSys.setCv, ← hx]
    simp
  · simp [CvSys.setCv, update_of_ne hc]

theorem SleepInv.step (h : SleepInv s) (hmove : CvMove s u op s') : SleepInv s' := by
  have hother : ∀ t, t ≠ u → s'.pc t = s.pc t := fun t ht => hmove.other ht
  cases hmove with
  | acquire b lk hpc hlk | release lk hpc hlk | giveUp k lk hpc hlk
  | reacquire k b lk hpc hlk | again k b lk hpc hwoken hlk =>
    exact h.stay hother (fun _ => rfl) (by simp [hpc])
  | wait c hpc hfree | signal c hpc hfree | broadcast c hpc hfree | unlockWait c d hpc
  | unlockWake c all ws hpc => exact h.stay hother (wchan_setCv rfl) (by simp [hpc])
  | sleep c d hpc =>
    have hout : ¬ (s.cv c).wchan.Inside u := by
      intro hin
      obtain ⟨d', hd'⟩ := h.pc c u hin
      simp [hpc] at hd'
    refine h.of_channel hother (c := c) (fun c' hc => ?_) (by simp [hpc]) (fun t ht => ?_) ?_
    · simp [CvSys.slept, CvSys.setCv, CvSys.goto, update_of_ne hc]
    · by_cases htu : t = u
      · subst htu
        exact ⟨d, by simp [CvSys.slept]⟩
      · rw [hother t htu]
        refine h.pc c t ?_
        simpa [CvSys.slept, CvSys.setCv, CvSys.goto, WaitQueue.Inside, htu] using ht
    · have hnodup : (u :: ((s.cv c).wchan.asleep ++ (s.cv c).wchan.woken)).Nodup :=
        List.nodup_cons.2 ⟨by simpa [WaitQueue.Inside] using hout, h.nodup c⟩
      simpa [CvSys.slept, CvSys.setCv, CvSys.goto, List.nodup_middle] using hnodup
  | wake c all ws hpc =>
    have hwchan : ((s.woke u c all ws).cv c).wchan =
        if all then (s.cv c).wchan.wakeAll else (s.cv c).wchan.wakeOne := by
      simp [CvSys.woke, CvSys.setCv, CvSys.goto]
    have hperm : (((s.woke u c all ws).cv c).wchan.asleep ++
        ((s.woke u c all ws).cv c).wchan.woken).Perm
        ((s.cv c).wchan.asleep ++ (s.cv c).wchan.woken) := by
      rw [hwchan]
      cases all with
      | true => exact WaitQueue.perm_wakeAll _
      | false => exact WaitQueue.perm_wakeOne _
    refine h.of_channel hother (fun c' hc => ?_) (by simp [hpc]) (fun t ht => ?_)
      (hperm.nodup_iff.2 (h.nodup c))
    · simp [CvSys.woke, CvSys.setCv, CvSys.goto, update_of_ne hc]
    · rw [WaitQueue.inside_iff, hperm.mem_iff, ← WaitQueue.inside_iff] at ht
      obtain ⟨d, hd⟩ := h.pc c t ht
      have htu : t ≠ u := by
        rintro rfl
        simp [hpc] at hd
      exact ⟨d, (hother t htu).trans hd⟩
  | relock c d hpc hwoken hfree =>
    have hwchan : ((cvRelock s u c d).cv c).wchan = (s.cv c).wchan.resume u := by
      simp [cvRelock, CvSys.setCv, CvSys.goto]
    have hnodup := h.nodup c
    have hsub : ((s.cv c).wchan.asleep ++ ((s.cv c).wchan.resume u).woken).Sublist
        ((s.cv c).wchan.asleep ++ (s.cv c).wchan.woken) :=
      (List.Sublist.refl _).append List.erase_sublist
    refine h.of_channel hother (c := c) (fun c' hc => ?_) (fun c' d' hd' => ?_) (fun t ht => ?_) ?_
    · simp [cvRelock, CvSys.setCv, CvSys.goto, update_of_ne hc]
    · rw [hpc] at hd'
      exact (Pc.asleep.inj hd').1.symm
    · rw [hwchan, WaitQueue.inside_iff] at ht
      -- the thread was on the channel once, so it has left it
      have htu : t ≠ u := by
        rintro rfl
        rcases List.mem_append.1 ht with hasleep | hleft
        · exact List.disjoint_of_nodup_append hnodup hasleep hwoken
        · exact (hnodup.of_append_right.not_mem_erase) hleft
      obtain ⟨d', hd'⟩ := h.pc c t (WaitQueue.inside_iff.2 (hsub.subset ht))
      exact ⟨d', (hother t htu).trans hd'⟩
    · rw [hwchan]
      exact hsub.nodup hnodup

end

/-! ## Signallers that hold the lock once -/

/-- The functions of `cv.c` are called by the owner of the lock at depth one. -/
def CalledOnce (s : CvSys T C) (a : T × CvOp C) : Prop :=
  match a.2 with
  | .wait _ => s.lock.owner = some a.1 ∧ s.lock.count = 1
  | .signal _ => s.lock.owner = some a.1 ∧ s.lock.count = 1
  | .broadcast _ => s.lock.owner = some a.1 ∧ s.lock.count = 1
  | _ => True

/-- A thread that has just entered a call owns the lock at depth one. -/
def EnteredOnce (s : CvSys T C) : Prop :=
  ∀ t k, s.pc t = .entered k → s.lock.owner = some t ∧ s.lock.count = 1

section
variable {s s' : CvSys T C} {c : C} {t u : T} {op : CvOp C}

theorem EnteredOnce.step (h : EnteredOnce s) (honce : CalledOnce s (u, op))
    (hmove : CvMove s u op s') : EnteredOnce s' := by
  intro t k hpc
  by_cases htu : t = u
  · subst htu
    cases hmove with
    | acquire b lk hpc' hlk | reacquire k' b lk hpc' hlk | again k' b lk hpc' hwoken hlk =>
      cases b <;> simp [CvSys.tried] at hpc
    | release lk hpc' hlk => simp [hpc'] at hpc
    | wait c hpc' hfree => exact honce
    | signal c hpc' hfree => exact honce
    | broadcast c hpc' hfree => exact honce
    | giveUp k' lk hpc' hlk => simp [CvSys.gaveUp] at hpc
    | sleep c d hpc' => simp [CvSys.slept] at hpc
    | wake c all ws hpc' => simp [CvSys.woke] at hpc
    | relock c d hpc' hwoken hfree => simp [cvRelock] at hpc
    | unlockWait c d hpc' => simp [cvUnlock] at hpc
    | unlockWake c all ws hpc' => simp [cvUnlock] at hpc
  · obtain ⟨hiff, hcount⟩ := hmove.lock.keeps (Ne.symm htu)
    rw [hmove.other htu] at hpc
    obtain ⟨ho, hone⟩ := h t k hpc
    exact ⟨hiff.2 ho, (hcount ho).trans hone⟩

section
variable (h : CvRun tr s)
include h

theorem CvRun.signalInv : SignalInv s := by
  refine Run.invariant ?_ (fun _ _ _ hI hs => hI.step hs.move) h
  rintro _ rfl
  exact ⟨by simp [Exclusive, CvSys.init, Pc.holds], by simp [CvSys.init, Pc.holds],
    by simp [CvSys.init, WaitQueue.empty]⟩

theorem CvRun.sleepInv : SleepInv s := by
  refine Run.invariant ?_ (fun _ _ _ hI hs => hI.step hs.move) h
  rintro _ rfl
  exact ⟨by simp [CvSys.init, WaitQueue.empty, WaitQueue.Inside],
    by simp [CvSys.init, WaitQueue.empty]⟩

theorem CvRun.waiting_pc {c : C} {t : T} (ht : t ∈ s.waiting c) :
    (∃ d, s.pc t = .released (.wait c d)) ∨ t ∈ (s.cv c).wchan.asleep ∧
    ∃ d, s.pc t = .asleep c d := by
  have hsignal := h.signalInv
  have hasleep : t ∈ (s.cv c).wchan.asleep →
      t ∈ (s.cv c).wchan.asleep ∧ ∃ d, s.pc t = .asleep c d :=
    fun hin => ⟨hin, h.sleepInv.pc c t (.inl hin)⟩
  cases hlock : (s.cv c).splock with
  | none => exact .inr (hasleep (hsignal.free c hlock ▸ ht))
  | some u =>
    have hholds := (hsignal.exclusive c u).1 hlock
    have hfound := hsignal.held c u hholds
    rcases hfound.mem ht with hin | ⟨rfl, c', d, hpc⟩
    · exact .inr (hasleep hin)
    · rw [hpc] at hholds
      obtain rfl : c' = c := Option.some.inj hholds
      exact .inl ⟨d, hpc⟩

theorem CvRun.waiting_of_asleep {c : C} {t : T} (ht : t ∈ (s.cv c).wchan.asleep) :
    t ∈ s.waiting c := by
  have hsignal := h.signalInv
  cases hlock : (s.cv c).splock with
  | none => exact hsignal.free c hlock ▸ ht
  | some u => exact (hsignal.held c u ((hsignal.exclusive c u).1 hlock)).of_asleep ht

theorem CvRun.enteredOnce (honce : ∀ e ∈ tr, CalledOnce e.1 e.2) : EnteredOnce s := by
  refine Run.invariant_of ?_ (fun _ _ _ hI hC hs => hI.step hC hs.move) h honce
  rintro _ rfl
  simp [EnteredOnce, CvSys.init]

end

end

/-- **No signal is lost.**  In every run in which the functions of `cv.c` are called by the owner of
the lock at depth one, a call of `cv_signal` or `cv_broadcast` that has taken `cv_splock` goes on,
the threads `ws` that wait stay the same until it wakes, and it then makes the one that has waited
longest runnable if it is `cv_signal`, and all of them if it is `cv_broadcast`. -/
theorem cvRun_signal {tr : List (CvSys T C × (T × CvOp C))} {s : CvSys T C} (h : CvRun tr s)
    (honce : ∀ e ∈ tr, CalledOnce e.1 e.2) {t : T} {c : C} {all : Bool} {ws : List T} :
    (s.pc t = .entered (.wake c all ws) →
      s.waiting c = ws ∧ ∃ s', CvStep s (t, .go) s' ∧ s'.pc t = .released (.wake c all ws)) ∧
    (s.pc t = .released (.wake c all ws) →
      s.waiting c = ws ∧ ∃ s', CvStep s (t, .go) s' ∧ s'.pc t = .woke c all ws ∧
        (s'.cv c).wchan.woken =
          (s.cv c).wchan.woken ++ (if all then ws else ws.head?.toList) ∧
        s'.waiting c = if all then [] else ws.tail) := by
  have hinv := h.signalInv
  refine ⟨fun hpc => ?_, fun hpc => ?_⟩
  · have hfound := hinv.held c t (by simp [hpc, Pc.holds, CvCall.cv])
    rw [hpc] at hfound
    obtain ⟨ho, hone⟩ := h.enteredOnce honce t _ hpc
    have hlk := lockRelease_one ho hone
    refine ⟨hfound.2, s.gaveUp t (.wake c all ws) ⟨none, 0, s.lock.wchan.wakeOne⟩, ⟨?_, ?_⟩,
      CvSys.goto_self _ _ _⟩
    · simp [CvOp.Allowed, hpc]
    · simp only [cvStep, cvGo, hpc, cvRelease, hlk, ok_bind]
  · have hfound := hinv.held c t (by simp [hpc, Pc.holds, CvCall.cv])
    have hholds := (hinv.exclusive c t).2 (by simp [hpc, Pc.holds, CvCall.cv])
    rw [hpc] at hfound
    obtain ⟨hasleep, hws⟩ := hfound
    obtain ⟨-, hwoken, hleft⟩ := CvSys.woke_spec t all ws hasleep
    rw [hws] at hwoken hleft
    refine ⟨hws, s.woke t c all ws, ⟨?_, ?_⟩, by simp [CvSys.woke], hwoken, hleft⟩
    · simp [CvOp.Allowed, hpc]
    · simp only [cvStep, cvGo, hpc, cvWake, hholds, beq_self_eq_true, assert_true, ok_bind]

/-- One thread waits and another one signals: the first is made runnable. -/
theorem cvRun_signal_one : ∃ (tr : List (CvSys Bool Unit × (Bool × CvOp Unit)))
    (s s' : CvSys Bool Unit), CvRun tr s ∧ s.pc true = .released (.wake () false [false]) ∧
      CvStep s (true, .go) s' ∧ (s'.cv ()).wchan.woken = [false] ∧ s'.waiting () = [] := by
  have hinit : CvRun [] (CvSys.init : CvSys Bool Unit) := Run.init rfl
  have hheld := cvNext_run hinit false .lockAcquire rfl rfl
  have hentered := cvNext_run hheld false (.wait ()) ⟨rfl, rfl⟩ rfl
  have hgone := cvNext_run hentered false .go trivial rfl
  have hasleep := cvNext_run hgone false .go trivial rfl
  have hother := cvNext_run hasleep true .lockAcquire rfl rfl
  have hsignal := cvNext_run hother true (.signal ()) ⟨rfl, rfl⟩ rfl
  have hreleased := cvNext_run hsignal true .go trivial rfl
  have hsig := fun honce =>
    (@cvRun_signal Bool Unit _ _ _ _ hreleased honce true () false [false]).2
  obtain ⟨-, s', hstep, -, hwoken, hwaiting⟩ := hsig (fun e he => by
    fin_cases he
    · trivial
    · exact ⟨rfl, rfl⟩
    · trivial
    · trivial
    · trivial
    · exact ⟨rfl, rfl⟩
    · trivial) rfl
  exact ⟨_, _, s', hreleased, rfl, hstep, hwoken, hwaiting⟩

end JinxOS
