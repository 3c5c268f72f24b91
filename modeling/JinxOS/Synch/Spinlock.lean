import JinxOS.Cpu
import JinxOS.Lib.Nesting

/-!
# Spinlocks and the interrupt flag

`synch/spinlock.c` on one CPU.  `spinlock_acquire` disables interrupts and saves the previous
state of the flag in `iflag`, a *single* static variable; `spinlock_release` re-enables them if
`iflag` says so.  The file follows that variable through arbitrary properly nested sequences of
acquires and releases.

The flags alone are a two-bit machine, `flagsStep`.  `run_of_nest` says that a properly nested
sequence runs without tripping an assertion and moves the flags as that machine does, so the rest
is about `flags`:

* with a spinlock held, interrupts are off (`flags_intr_of_held`);
* an acquire made while another spinlock is held overwrites the saved flag with `false`, and
  nothing writes it back before the outermost release (`flags_of_nested`).

So the interrupt flag is restored exactly when interrupts were off to begin with or no spinlock
is taken inside another, which is `flagDiscipline_iff`.
-/

namespace JinxOS

open Paren

/-! ## The code -/

/-- `struct spinlock`. -/
structure Spinlock where
  /-- The word that `xchg` works on. -/
  locked : Bool
  /-- The CPU that holds the lock. -/
  cpu : Option Nat
  deriving DecidableEq, Repr

/-- `spinlock_init`. -/
def spinlockInit : Spinlock := ⟨false, none⟩

/-- `spinlock_held`. -/
def spinlockHeld (c : Cpu) (lk : Spinlock) : Bool := lk.locked && lk.cpu == c.thiscpu

/-- `spinlock_acquire`.  With one CPU nobody can release a lock that is taken, so the `xchg` loop
ends at once or never. -/
def spinlockAcquire (c : Cpu) (lk : Spinlock) : Except Fault (Cpu × Spinlock) := do
  assert "!spinlock_held(lk)" (!spinlockHeld c lk)
  let (on, c) := cli c
  let c := { c with iflag := on }
  if lk.locked then .error .spins
  else
    let lk := { lk with locked := true }
    match c.thiscpu with
    | none => .ok (c, lk)
    | some id => .ok ({ c with spinlocks := Word.add c.spinlocks 1 }, { lk with cpu := some id })

/-- `spinlock_release`. -/
def spinlockRelease (c : Cpu) (lk : Spinlock) : Except Fault (Cpu × Spinlock) := do
  assert "spinlock_held(lk)" (spinlockHeld c lk)
  let (c, lk) := match c.thiscpu with
    | none => (c, lk)
    | some _ => ({ c with spinlocks := Word.sub c.spinlocks 1 }, { lk with cpu := none })
  .ok (ifx c c.iflag, { lk with locked := false })

/-! ## One acquire, one release -/

/-- The lock as the running CPU holds it. -/
def Cpu.holding (c : Cpu) : Spinlock := ⟨true, c.thiscpu⟩

/-- The CPU after it has taken a lock: interrupts off, and their old state in `iflag`. -/
def Cpu.acquired (c : Cpu) : Cpu :=
  { c with
    intr := false
    iflag := c.intr
    spinlocks := if c.thiscpu.isSome then Word.add c.spinlocks 1 else c.spinlocks }

/-- The CPU after it has given a lock up: interrupts on if `iflag` says so. -/
def Cpu.released (c : Cpu) : Cpu :=
  { c with
    intr := c.intr || c.iflag
    spinlocks := if c.thiscpu.isSome then Word.sub c.spinlocks 1 else c.spinlocks }

theorem spinlockHeld_init (c : Cpu) : spinlockHeld c spinlockInit = false := rfl

theorem spinlockHeld_holding (c : Cpu) : spinlockHeld c c.holding = true := by
  simp [spinlockHeld, Cpu.holding]

theorem spinlockAcquire_init (c : Cpu) :
    spinlockAcquire c spinlockInit = .ok (c.acquired, c.holding) := by
  obtain ⟨intr, iflag, thiscpu, spinlocks⟩ := c
  cases thiscpu <;> rfl

theorem spinlockRelease_holding (c : Cpu) :
    spinlockRelease c c.holding = .ok (c.released, spinlockInit) := by
  rw [spinlockRelease, spinlockHeld_holding, assert_true]
  obtain ⟨intr, iflag, thiscpu, spinlocks⟩ := c
  cases iflag <;> cases thiscpu <;>
    simp [Cpu.holding, Cpu.released, spinlockInit, ifx, bind, Except.bind]

theorem spinlockRelease_acquired (c : Cpu) :
    spinlockRelease c.acquired c.holding = .ok (c.acquired.released, spinlockInit) :=
  spinlockRelease_holding c.acquired

/-- Whatever lock it was about, an acquire that returns leaves the CPU in the same state. -/
theorem spinlockAcquire_cpu {c c' : Cpu} {lk lk' : Spinlock}
    (h : spinlockAcquire c lk = .ok (c', lk')) : c' = c.acquired := by
  obtain ⟨-, -, h⟩ := of_bind h
  obtain ⟨intr, iflag, thiscpu, spinlocks⟩ := c
  simp only [cli] at h
  split at h
  · exact absurd h (by simp)
  · cases thiscpu <;> cases h <;> rfl

theorem spinlockRelease_cpu {c c' : Cpu} {lk lk' : Spinlock}
    (h : spinlockRelease c lk = .ok (c', lk')) : c' = c.released := by
  obtain ⟨-, -, h⟩ := of_bind h
  obtain ⟨intr, iflag, thiscpu, spinlocks⟩ := c
  cases iflag <;> cases thiscpu <;> cases h <;> simp [ifx, Cpu.released]

variable {L : Type}

/-! ## The two flags

What the calls do to the interrupt flag and to `iflag` does not depend on which lock they are
about. -/

/-- The effect of one call on the pair of the interrupt flag and `iflag`. -/
def flagsStep : Bool × Bool → Paren L → Bool × Bool
  | (intr, _), opn _ => (false, intr)
  | (intr, iflag), cls _ => (intr || iflag, iflag)

/-- The interrupt flag and `iflag` after a sequence of calls. -/
def flags (f : Bool × Bool) (ops : List (Paren L)) : Bool × Bool := ops.foldl flagsStep f

theorem flags_false (ops : List (Paren L)) : flags (false, false) ops = (false, false) := by
  induction ops with
  | nil => rfl
  | cons op ops ih => cases op <;> exact ih

/-- **A nested acquire loses the saved flag**: whatever comes after it, interrupts stay off. -/
theorem flags_of_nested (f : Bool × Bool) (l l' : L) (ops : List (Paren L)) :
    flags f (opn l :: opn l' :: ops) = (false, false) := flags_false ops

/-- What the flags satisfy while the locks of the stack are held: interrupts are off, and inside
a nested acquire the saved flag is `false` as well. -/
structure FlagsInv (st : List L) (f : Bool × Bool) : Prop where
  intr : st ≠ [] → f.1 = false
  /-- The second acquire has saved the flag of the first one's critical section. -/
  iflag : 2 ≤ st.length → f.2 = false

theorem flagsInv_nil (f : Bool × Bool) : FlagsInv ([] : List L) f := ⟨by simp, by simp⟩

/-! ## Any number of locks

The calls of one CPU form a bracket sequence: an opening bracket is a call of `spinlock_acquire`,
a closing one a call of `spinlock_release`. -/

/-- One CPU and its spinlocks. -/
structure SpinSys (L : Type) where
  cpu : Cpu
  lock : L → Spinlock

variable [DecidableEq L]

/-- One call. -/
def spinStep (s : SpinSys L) : Paren L → Except Fault (SpinSys L)
  | opn l => do
    let (cpu, lk) ← spinlockAcquire s.cpu (s.lock l)
    .ok ⟨cpu, Function.update s.lock l lk⟩
  | cls l => do
    let (cpu, lk) ← spinlockRelease s.cpu (s.lock l)
    .ok ⟨cpu, Function.update s.lock l lk⟩

/-- A sequence of calls. -/
def spinRun (s : SpinSys L) : List (Paren L) → Except Fault (SpinSys L)
  | [] => .ok s
  | op :: ops => do spinRun (← spinStep s op) ops

/-- The locks on the stack are held by this CPU, and all others are free. -/
def SpinSys.Holds (s : SpinSys L) (st : List L) : Prop :=
  ∀ l, s.lock l = if l ∈ st then s.cpu.holding else spinlockInit

section
variable {s : SpinSys L} {st : List L}

theorem SpinSys.Holds.held_iff (h : s.Holds st) (l : L) :
    spinlockHeld s.cpu (s.lock l) = true ↔ l ∈ st := by
  rw [h l]
  split
  · simp [spinlockHeld_holding, *]
  · simp [spinlockHeld_init, *]

theorem spinStep_opn {l : L} (h : s.Holds st) (hl : l ∉ st) :
    ∃ s', spinStep s (opn l) = .ok s' ∧ s'.Holds (l :: st) := by
  refine ⟨⟨s.cpu.acquired, Function.update s.lock l s.cpu.holding⟩, ?_, ?_⟩
  · have hfree : s.lock l = spinlockInit := by rw [h l, if_neg hl]
    rw [spinStep, hfree, spinlockAcquire_init]
    rfl
  · intro x
    by_cases hx : x = l
    · subst hx; simp [Cpu.holding, Cpu.acquired]
    · simp [h x, hx, Cpu.holding, Cpu.acquired]

theorem spinStep_cls {l : L} (h : s.Holds (l :: st)) (hl : l ∉ st) :
    ∃ s', spinStep s (cls l) = .ok s' ∧ s'.Holds st := by
  refine ⟨⟨s.cpu.released, Function.update s.lock l spinlockInit⟩, ?_, ?_⟩
  · have hheld : s.lock l = s.cpu.holding := by rw [h l, if_pos List.mem_cons_self]
    rw [spinStep, hheld, spinlockRelease_holding]
    rfl
  · intro x
    by_cases hx : x = l
    · subst hx; simp [hl]
    · simp [h x, hx, Cpu.holding, Cpu.released]

end

theorem spinRun_append (s : SpinSys L) (pre post : List (Paren L)) :
    spinRun s (pre ++ post) = (spinRun s pre).bind fun s' => spinRun s' post := by
  induction pre generalizing s with
  | nil => rfl
  | cons op pre ih =>
    rw [List.cons_append, spinRun, spinRun]
    cases spinStep s op with
    | error e => rfl
    | ok s' => exact ih s'

/-- The two flags of a system. -/
def SpinSys.flags (s : SpinSys L) : Bool × Bool := (s.cpu.intr, s.cpu.iflag)

theorem flags_of_step {s s' : SpinSys L} {op : Paren L} (h : spinStep s op = .ok s') :
    s'.flags = flagsStep s.flags op := by
  cases op with
  | opn l =>
    obtain ⟨⟨cpu, lk⟩, hacq, hs'⟩ := of_bind h
    cases hs'
    rw [SpinSys.flags, spinlockAcquire_cpu hacq]
    rfl
  | cls l =>
    obtain ⟨⟨cpu, lk⟩, hrel, hs'⟩ := of_bind h
    cases hs'
    rw [SpinSys.flags, spinlockRelease_cpu hrel]
    rfl

section
variable {ops : List (Paren L)}

theorem flags_of_run {s s' : SpinSys L} (h : spinRun s ops = .ok s') :
    s'.flags = flags s.flags ops := by
  induction ops generalizing s with
  | nil => cases h; rfl
  | cons op ops ih =>
    obtain ⟨s1, hstep, hrun⟩ := of_bind h
    rw [ih hrun, flags_of_step hstep]
    rfl

theorem intr_of_run {s s' : SpinSys L} (h : spinRun s ops = .ok s') :
    s'.cpu.intr = (flags (s.cpu.intr, s.cpu.iflag) ops).1 := congrArg Prod.fst (flags_of_run h)

/-- **A properly nested sequence runs**, and it leaves exactly the locks of its stack held. -/
theorem run_of_nest :
    ∀ {s : SpinSys L} {st st' : List L}, s.Holds st → st.Nodup → nest st ops = some st' →
      ∃ s', spinRun s ops = .ok s' ∧ s'.Holds st' := by
  induction ops with
  | nil =>
    intro s st st' hs _ h
    obtain rfl : st = st' := by simpa [nest] using h
    exact ⟨s, rfl, hs⟩
  | cons op ops ih =>
    intro s st st' hs hnd h
    cases op with
    | opn l =>
      obtain ⟨hl, hrest⟩ := nest_opn h
      obtain ⟨s1, hstep, hs1⟩ := spinStep_opn hs hl
      obtain ⟨s', hrun, hs'⟩ := ih hs1 (List.nodup_cons.2 ⟨hl, hnd⟩) hrest
      exact ⟨s', by rw [spinRun, hstep]; exact hrun, hs'⟩
    | cls l =>
      obtain ⟨st0, rfl, hrest⟩ := nest_cls h
      obtain ⟨hl, hnd0⟩ := List.nodup_cons.1 hnd
      obtain ⟨s1, hstep, hs1⟩ := spinStep_cls hs hl
      obtain ⟨s', hrun, hs'⟩ := ih hs1 hnd0 hrest
      exact ⟨s', by rw [spinRun, hstep]; exact hrun, hs'⟩

theorem FlagsInv.run :
    ∀ {st st' : List L} {f : Bool × Bool}, FlagsInv st f → nest st ops = some st' →
      FlagsInv st' (flags f ops) := by
  induction ops with
  | nil =>
    intro st st' f hf h
    obtain rfl : st = st' := by simpa [nest] using h
    exact hf
  | cons op ops ih =>
    intro st st' f hf h
    cases op with
    | opn l =>
      obtain ⟨-, hrest⟩ := nest_opn h
      refine ih ⟨fun _ => rfl, fun hlen => hf.intr ?_⟩ hrest
      rintro rfl
      simp at hlen
    | cls l =>
      obtain ⟨st0, rfl, hrest⟩ := nest_cls h
      refine ih (f := (f.1 || f.2, f.2)) ⟨fun hne => ?_, fun hlen => ?_⟩ hrest
      · have hlen : 0 < st0.length := List.length_pos_iff.2 hne
        simp [hf.intr (by simp), hf.iflag (by simp; omega)]
      · exact hf.iflag (by simp; omega)

/-- With interrupts off at the start of a balanced sequence they stay off. -/
theorem flags_of_off {b : Bool} (h : nest [] ops = some []) : (flags (false, b) ops).1 = false := by
  rcases exists_section h with rfl | ⟨l, body, post, rfl, -, -⟩
  · rfl
  · exact congrArg Prod.fst (flags_false (body ++ cls l :: post))

end

/-! ## The discipline -/

/-- The interrupt-flag discipline along a sequence of calls: it runs to its end; in every state on
the way in which a spinlock is held interrupts are off; and every outermost critical section,
whatever it contains, leaves the interrupt flag as it found it. -/
structure FlagDiscipline (s : SpinSys L) (ops : List (Paren L)) : Prop where
  runs : ∃ s', spinRun s ops = .ok s'
  off : ∀ pre post s', ops = pre ++ post → spinRun s pre = .ok s' →
    (∃ l, spinlockHeld s'.cpu (s'.lock l) = true) → s'.cpu.intr = false
  /-- The flag after the last release is the flag before the outermost acquire. -/
  restored : ∀ pre l body post s₁ s₂, ops = pre ++ opn l :: (body ++ cls l :: post) →
    nest [] pre = some [] → nest [] body = some [] → spinRun s pre = .ok s₁ →
    spinRun s₁ (opn l :: (body ++ [cls l])) = .ok s₂ → s₂.cpu.intr = s₁.cpu.intr

theorem SpinSys.Holds.run {s s' : SpinSys L} {ops : List (Paren L)} {st' : List L} (hs : s.Holds [])
    (h : nest [] ops = some st') (hrun : spinRun s ops = .ok s') : s'.Holds st' := by
  obtain ⟨s1, hrun1, hs1⟩ := run_of_nest hs List.nodup_nil h
  obtain rfl : s1 = s' := Except.ok.inj (hrun1.symm.trans hrun)
  exact hs1

theorem intr_off_of_held {s s' : SpinSys L} {ops pre post : List (Paren L)} (hs : s.Holds [])
    (h : nest [] ops = some []) (hops : ops = pre ++ post) (hrun : spinRun s pre = .ok s')
    (hheld : ∃ l, spinlockHeld s'.cpu (s'.lock l) = true) : s'.cpu.intr = false := by
  rw [hops, nest_append] at h
  obtain ⟨st, hst, -⟩ := Option.bind_eq_some_iff.1 h
  obtain ⟨l, hl⟩ := hheld
  have hne : st ≠ [] := List.ne_nil_of_mem (((hs.run hst hrun).held_iff l).1 hl)
  have hinv := (flagsInv_nil s.flags).run hst
  rw [← flags_of_run hrun] at hinv
  exact hinv.intr hne

/-- The discipline of a sequence is inherited by what follows its first critical sections. -/
theorem FlagDiscipline.suffix {s s1 : SpinSys L} {ops rest : List (Paren L)}
    (h : FlagDiscipline s (ops ++ rest)) (hops : nest [] ops = some [])
    (hrun : spinRun s ops = .ok s1) : FlagDiscipline s1 rest := by
  have hshift : ∀ pre, spinRun s (ops ++ pre) = spinRun s1 pre := by
    intro pre
    rw [spinRun_append, hrun]
    rfl
  refine ⟨?_, fun pre post s' hrest hpre => ?_,
    fun pre l body post s' s2 hrest hnest hbody hpre => ?_⟩
  · rw [← hshift]
    exact h.runs
  · refine h.off (ops ++ pre) post s' (by rw [hrest, List.append_assoc]) ?_
    rw [hshift, hpre]
  · refine h.restored (ops ++ pre) l body post s' s2 (by rw [hrest, List.append_assoc]) ?_ hbody ?_
    · rw [nest_append, hops]
      exact hnest
    · rw [hshift, hpre]

/-- With interrupts on, the discipline forbids nested acquires.  The induction is over the
outermost critical sections: a nested one breaks the discipline at once, and after an empty one
interrupts are on again. -/
theorem flat_of_flagDiscipline {s : SpinSys L} {ops : List (Paren L)} (hs : s.Holds [])
    (h : nest [] ops = some []) (hon : s.cpu.intr = true) (hd : FlagDiscipline s ops) :
    Flat ops := by
  rcases exists_section h with rfl | ⟨l, body, post, rfl, hbody, hpost⟩
  · intro pre a post hops
    simp at hops
  · have hsplit : opn l :: (body ++ cls l :: post) = opn l :: (body ++ [cls l]) ++ post := by simp
    have hruns := hd.runs
    rw [hsplit, spinRun_append] at hruns
    obtain ⟨s', hruns⟩ := hruns
    obtain ⟨s2, hrun2, -⟩ := of_bind hruns
    have hon2 : s2.cpu.intr = true :=
      (hd.restored [] l body post s s2 rfl rfl hbody rfl hrun2).trans hon
    rcases exists_section hbody with rfl | ⟨l', inner, rest, rfl, -, -⟩
    · have hsec : nest [] [opn l, cls l] = some [] := by simp [nest]
      have hrest : Flat post :=
        flat_of_flagDiscipline (hs.run hsec hrun2) hpost hon2 (hd.suffix hsec hrun2)
      exact hrest.cons_section
    · have hoff2 := intr_of_run hrun2
      rw [List.cons_append, flags_of_nested] at hoff2
      exact absurd (hon2.symm.trans hoff2) (by simp)
  termination_by ops.length
  decreasing_by
    subst_vars
    simp only [List.length_append, List.length_cons]
    omega

/-- **When the interrupt flag is restored.**  A properly nested sequence of spinlock calls, started
with all spinlocks free, keeps the interrupt-flag discipline exactly if interrupts were off to
begin with or no spinlock is acquired while another one is held. -/
theorem flagDiscipline_iff {s : SpinSys L} {ops : List (Paren L)} (hs : s.Holds [])
    (h : nest [] ops = some []) : FlagDiscipline s ops ↔ s.cpu.intr = false ∨ Flat ops := by
  constructor
  · intro hd
    cases hon : s.cpu.intr with
    | false => exact .inl rfl
    | true => exact .inr (flat_of_flagDiscipline hs h hon hd)
  · intro hcond
    obtain ⟨s', hrun, -⟩ := run_of_nest hs List.nodup_nil h
    refine ⟨⟨s', hrun⟩, fun pre post s' hops => intr_off_of_held hs h hops, ?_⟩
    intro pre l body post s₁ s₂ hops hpre hbody hrun₁ hrun₂
    rcases hcond with hoff | hflat
    · have hoff₁ : s₁.cpu.intr = false := by rw [intr_of_run hrun₁, hoff, flags_of_off hpre]
      rw [hoff₁, intr_of_run hrun₂, hoff₁]
      exact congrArg Prod.fst (flags_false (body ++ [cls l]))
    · rw [hops] at hflat
      obtain rfl := hflat.body_eq_nil hpre hbody
      exact (intr_of_run hrun₂).trans (Bool.false_or _)

/-- The two spinlocks that `V` takes when it wakes a thread: it calls `wchan_wakeone` with
`sem_lock` held, and `thread_make_runnable` takes the run queue's lock. -/
inductive VLock
  | semLock
  | activeThreadsLock
  deriving DecidableEq

/-- A CPU with interrupts on and both spinlocks free. -/
def vSys : SpinSys VLock := ⟨⟨true, false, some 0, 0⟩, fun _ => spinlockInit⟩

/-- The spinlock calls of a `V` that wakes a thread. -/
def vCalls : List (Paren VLock) :=
  [opn .semLock, opn .activeThreadsLock, cls .activeThreadsLock, cls .semLock]

theorem flagDiscipline_iff_vCalls :
    FlagDiscipline vSys vCalls ↔ vSys.cpu.intr = false ∨ Flat vCalls :=
  flagDiscipline_iff (fun _ => rfl) (by decide)

/-- A `V` that wakes a thread leaves interrupts off. -/
theorem not_flagDiscipline_vCalls : nest [] vCalls = some [] ∧ ¬ FlagDiscipline vSys vCalls := by
  refine ⟨by decide, fun hd => ?_⟩
  have hflat : Flat vCalls := flat_of_flagDiscipline (fun _ => rfl) (by decide) rfl hd
  have hnest := hflat [opn .semLock] .activeThreadsLock [cls .activeThreadsLock, cls .semLock] rfl
  exact absurd hnest (by decide)

end JinxOS
