/-!
# Wait queues

The threads that wait on a channel: those that are asleep, in the order in which they went to sleep,
and those that have been woken and have not run since.  A thread that runs again either leaves the
queue or goes back to sleep.

What a woken thread will do is not known to the thread that wakes it, so the argument that a
condition is not missed is about both parts of the queue: as long as there is a woken thread,
somebody is going to look at the condition.
-/

/-- The threads that wait on a channel. -/
structure WaitQueue (T : Type) where
  /-- The sleepers, first come first. -/
  asleep : List T
  /-- The threads that have been woken and have not run since. -/
  woken : List T
  deriving DecidableEq

namespace WaitQueue

variable {T : Type}

/-- Nobody waits. -/
def empty : WaitQueue T := ⟨[], []⟩

/-- The thread is on its way through a wait. -/
def Inside (q : WaitQueue T) (t : T) : Prop := t ∈ q.asleep ∨ t ∈ q.woken

/-- A thread goes to sleep. -/
def sleep (q : WaitQueue T) (t : T) : WaitQueue T := { q with asleep := q.asleep ++ [t] }

/-- The first sleeper is woken. -/
def wakeOne (q : WaitQueue T) : WaitQueue T :=
  match q.asleep with
  | [] => q
  | t :: ts => ⟨ts, q.woken ++ [t]⟩

/-- All sleepers are woken. -/
def wakeAll (q : WaitQueue T) : WaitQueue T := ⟨[], q.woken ++ q.asleep⟩

/-- A woken thread runs. -/
def resume [DecidableEq T] (q : WaitQueue T) (t : T) : WaitQueue T :=
  { q with woken := q.woken.erase t }

@[simp] theorem asleep_sleep (q : WaitQueue T) (t : T) : (q.sleep t).asleep = q.asleep ++ [t] := rfl

@[simp] theorem woken_sleep (q : WaitQueue T) (t : T) : (q.sleep t).woken = q.woken := rfl

@[simp] theorem asleep_wakeOne (q : WaitQueue T) : q.wakeOne.asleep = q.asleep.tail := by
  obtain ⟨asleep, woken⟩ := q
  cases asleep <;> rfl

@[simp] theorem woken_wakeOne (q : WaitQueue T) :
    q.wakeOne.woken = q.woken ++ q.asleep.head?.toList := by
  obtain ⟨asleep, woken⟩ := q
  cases asleep <;> simp [wakeOne]

@[simp] theorem asleep_resume [DecidableEq T] (q : WaitQueue T) (t : T) :
    (q.resume t).asleep = q.asleep := rfl

theorem length_wakeOne {q : WaitQueue T} (h : q.asleep ≠ []) :
    q.wakeOne.woken.length = q.woken.length + 1 := by
  obtain ⟨asleep, woken⟩ := q
  cases asleep with
  | nil => exact absurd rfl h
  | cons t ts => simp

theorem length_resume [DecidableEq T] {q : WaitQueue T} {t : T} (h : t ∈ q.woken) :
    (q.resume t).woken.length + 1 = q.woken.length := by
  have hpos : 0 < q.woken.length := List.length_pos_of_mem h
  rw [resume, List.length_erase_of_mem h]
  omega

theorem inside_iff {q : WaitQueue T} {t : T} : q.Inside t ↔ t ∈ q.asleep ++ q.woken :=
  List.mem_append.symm

theorem perm_wakeOne (q : WaitQueue T) :
    (q.wakeOne.asleep ++ q.wakeOne.woken).Perm (q.asleep ++ q.woken) := by
  obtain ⟨asleep, woken⟩ := q
  cases asleep with
  | nil => exact .refl _
  | cons t ts =>
    rw [wakeOne, ← List.append_assoc, List.cons_append]
    exact List.perm_append_singleton t (ts ++ woken)

theorem perm_wakeAll (q : WaitQueue T) :
    (q.wakeAll.asleep ++ q.wakeAll.woken).Perm (q.asleep ++ q.woken) := by
  rw [wakeAll, List.nil_append]
  exact List.perm_append_comm

end WaitQueue
