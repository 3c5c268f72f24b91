import JinxOS.Klib.List

/-!
# Queues

The code of `klib/queue.c`: a list and a canary.  `Queue.of` is the queue with the given values.
-/

namespace JinxOS

/-- `struct queue`. -/
structure Queue (α : Type) where
  datatype : Nat
  vals : KList α
  deriving DecidableEq, Repr

/-- `QUEUETYPE`. -/
def queueType : Nat := 2222

section
variable {α : Type}

/-- `ASSERT_QUEUE(q)`. -/
def assertQueue (q : Queue α) : Except Fault Unit :=
  assert "q->datatype == QUEUETYPE" (q.datatype == queueType)

/-- `queue_create`. -/
def queueCreate : Queue α := ⟨queueType, listCreate⟩

/-- `queue_push`. -/
def queuePush (q : Queue α) (newval : α) : Except Fault (Queue α) := do
  assertQueue q
  let vals ← listPushBack q.vals newval
  .ok { q with vals := vals }

/-- `queue_pop`. -/
def queuePop (q : Queue α) : Except Fault (Queue α) := do
  assertQueue q
  let vals ← listPopFront q.vals
  .ok { q with vals := vals }

/-- `queue_front`. -/
def queueFront (q : Queue α) : Except Fault (Option α) := do
  assertQueue q
  listFront q.vals

/-- `queue_isempty`. -/
def queueIsempty (q : Queue α) : Except Fault Bool := do
  assertQueue q
  .ok (listIsempty q.vals)

/-- The queue with these values. -/
def Queue.of (vs : List α) : Queue α := ⟨queueType, .of vs⟩

end

section
variable {α : Type} {vs : List α} {x : α}

@[simp] theorem assertQueue_of (l : KList α) : assertQueue (⟨queueType, l⟩ : Queue α) = .ok () := by
  rw [assertQueue, beq_self_eq_true, assert_true]

theorem queuePush_of (h : vs.length + 1 < 2 ^ 32) (x : α) :
    queuePush (.of vs) x = .ok (.of (vs ++ [x])) := by
  rw [queuePush, Queue.of, assertQueue_of, ok_bind, listPushBack_of h, ok_bind]
  rfl

theorem queuePop_of (h : (x :: vs).length < 2 ^ 32) : queuePop (.of (x :: vs)) = .ok (.of vs) := by
  rw [queuePop, Queue.of, assertQueue_of, ok_bind, listPopFront_of h, ok_bind]
  rfl

theorem queueFront_of (vs : List α) : queueFront (.of vs) = .ok vs.head? := by
  rw [queueFront, Queue.of, assertQueue_of, ok_bind, listFront_of]

theorem queueIsempty_of (vs : List α) : queueIsempty (.of vs) = .ok vs.isEmpty := by
  rw [queueIsempty, Queue.of, assertQueue_of, ok_bind, listIsempty_of]

end

end JinxOS
