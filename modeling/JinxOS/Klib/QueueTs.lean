import JinxOS.Klib.Queue
import JinxOS.Mem.Mm
import JinxOS.Synch.Monitor

/-!
# The queue that threads share

`klib/queue_ts.c` as a monitor: any number of threads push to one queue and take from it, in any
interleaving.  A value is a pointer, and `NULL` is the number zero.

The state also has a history: the values that were pushed, and the values that were taken, both in
the order of the accesses.  A call takes a value when it has got it from `queue_front` and leaves
the section in which it could still remove it.  What a queue promises is `QueueFifo`: the values
taken are the first ones pushed and the others are in the queue, and a call that takes a value has
removed that value.

`queue_ts_pop` removes what it takes.  `queue_ts_pop_blocking` does so only if the value is not
`NULL`: it returns a `NULL` that was pushed and leaves it at the front of the queue.  So the promise
is kept in a run exactly as long as no `queue_ts_pop_blocking` finds `NULL` (`queueRun_fifo_iff`).
-/

namespace JinxOS

/-! ## The code -/

/-- The queue, and the history of the accesses to it. -/
structure QueueLog where
  qu : Queue Nat
  /-- The values pushed, in order. -/
  pushed : List Nat
  /-- The values taken, in order. -/
  taken : List Nat
  deriving DecidableEq

/-- `queue_ts_create`. -/
def QueueLog.init : QueueLog := ⟨queueCreate, [], []⟩

/-- A call. -/
inductive QueueTsCall
  /-- `queue_ts_push`. -/
  | push (newval : Nat)
  /-- `queue_ts_pop`. -/
  | pop
  /-- `queue_ts_pop_blocking`. -/
  | popBlocking
  /-- `queue_ts_isempty`. -/
  | isempty

/-- The points of the calls. -/
inductive QueueTsPoint
  /-- Before `queue_push`. -/
  | push (newval : Nat)
  /-- Before `cv_signal`. -/
  | signal
  /-- Before the test of `queue_ts_pop`. -/
  | pop
  /-- Before the test of the loop of `queue_ts_pop_blocking`. -/
  | test
  /-- Before `cv_wait`. -/
  | wait
  /-- Before `queue_front`; `blocking` in `queue_ts_pop_blocking`. -/
  | front (blocking : Bool)
  /-- After `queue_front`. -/
  | got (blocking : Bool) (ret : Nat)
  /-- Before the `queue_isempty` of `queue_ts_isempty`. -/
  | isempty
  /-- Before the `lock_release` of a call that takes no value. -/
  | leave
  /-- Before the `lock_release` of a call that returns `ret`, with the value that it has removed. -/
  | done (ret : Nat) (removed : Option Nat)
  deriving DecidableEq

/-- `queue_push`.  The node of the list is a block of the heap of at least sixteen bytes, so the
address space has no room for `2 ^ 28` of them. -/
def logPush (newval : Nat) (q : QueueLog) : Except Fault (QueueLog × QueueTsPoint) :=
  if q.qu.vals.size < 2 ^ 28 then do
    let qu ← queuePush q.qu newval
    .ok ({ q with qu := qu, pushed := q.pushed ++ [newval] }, .signal)
  else .error sbrkPanic

/-- `queue_isempty`, and the two ways to go on. -/
def logTest (whenEmpty other : QueueTsPoint) (q : QueueLog) :
    Except Fault (QueueLog × QueueTsPoint) := do
  let empty ← queueIsempty q.qu
  .ok (q, if empty then whenEmpty else other)

/-- `queue_front`, which returns `NULL` for an empty queue. -/
def logFront (blocking : Bool) (q : QueueLog) : Except Fault (QueueLog × QueueTsPoint) := do
  let ret ← queueFront q.qu
  .ok (q, .got blocking (ret.getD 0))

/-- `queue_pop`. -/
def logPop (ret : Nat) (q : QueueLog) : Except Fault (QueueLog × QueueTsPoint) := do
  let removed ← queueFront q.qu
  let qu ← queuePop q.qu
  .ok ({ q with qu := qu, taken := q.taken ++ [ret] }, .done ret removed)

/-- `if (ret != NULL) queue_pop(q->qu)`. -/
def logPopUnlessNull (ret : Nat) (q : QueueLog) : Except Fault (QueueLog × QueueTsPoint) :=
  if ret ≠ 0 then logPop ret q
  else .ok ({ q with taken := q.taken ++ [ret] }, .done ret none)

/-- What a thread does at a point. -/
def queueTsAct : QueueTsPoint → MonAct Unit QueueLog QueueTsPoint
  | .push newval => .access (logPush newval)
  | .signal => .signal () .leave
  | .pop => .access (logTest .leave (.front false))
  | .test => .access (logTest .wait (.front true))
  | .wait => .wait () .test
  | .front blocking => .access (logFront blocking)
  | .got false ret => .access (logPop ret)
  | .got true ret => .access (logPopUnlessNull ret)
  | .isempty => .access (logTest .leave .leave)
  | .leave => .release
  | .done _ _ => .release

/-- `klib/queue_ts.c`. -/
def queueTs : Monitor Unit QueueLog QueueTsPoint QueueTsCall where
  start
    | .push newval => .push newval
    | .pop => .pop
    | .popBlocking => .test
    | .isempty => .isempty
  act := queueTsAct

/-! ## First in, first out -/

/-- The values of the queue, with the history. -/
structure QueueLog.Holds (q : QueueLog) (vs : List Nat) : Prop where
  /-- The queue. -/
  qu : q.qu = .of vs
  /-- What was pushed was taken, or is there. -/
  pushed : q.pushed = q.taken ++ vs
  /-- The queue is in memory. -/
  size : vs.length ≤ 2 ^ 28

/-- What a thread knows at a point that holds the lock. -/
def QueueTsPoint.Knows (vs : List Nat) : QueueTsPoint → Prop
  | .front _ => vs ≠ []
  | .got _ ret => vs.head? = some ret
  | .done ret removed => removed = some ret
  | _ => True

/-- The queue promises this. -/
structure QueueFifo {T : Type} (s : MonSys T Unit QueueLog QueueTsPoint) : Prop where
  first : s.obj.taken <+: s.obj.pushed
  /-- Each value taken has left the queue, and no other value has. -/
  rest : s.obj.pushed = s.obj.taken ++ s.obj.qu.vals.vals
  removed : ∀ t ret removed, s.pc t = some (.done ret removed) → removed = some ret

/-- No `queue_ts_pop_blocking` has found `NULL` here. -/
def QueueTsPoint.NotNull (p : QueueTsPoint) (_ : QueueLog) : Prop := p ≠ .got true 0

variable {q q' : QueueLog} {vs : List Nat} {p p' : QueueTsPoint}

theorem logPush_ok {newval : Nat} (h : q.Holds vs) (hq : logPush newval q = .ok (q', p')) :
    q'.Holds (vs ++ [newval]) ∧ p' = .signal := by
  obtain ⟨hqu, hpushed, -⟩ := h
  rw [logPush] at hq
  split at hq
  case isTrue hsize =>
    rw [hqu] at hsize hq
    have hlt : vs.length < 2 ^ 28 := hsize
    rw [queuePush_of (by omega), ok_bind] at hq
    cases hq
    refine ⟨⟨rfl, ?_, ?_⟩, rfl⟩
    · rw [hpushed, List.append_assoc]
    · rw [List.length_append]
      exact hlt
  case isFalse => exact nomatch hq

theorem logTest_ok {whenEmpty other : QueueTsPoint} (h : q.Holds vs)
    (hq : logTest whenEmpty other q = .ok (q', p')) :
    q' = q ∧ p' = if vs.isEmpty then whenEmpty else other := by
  rw [logTest, h.qu, queueIsempty_of, ok_bind] at hq
  cases hq
  exact ⟨rfl, rfl⟩

theorem logFront_ok {blocking : Bool} (h : q.Holds vs) (hq : logFront blocking q = .ok (q', p')) :
    q' = q ∧ p' = .got blocking (vs.head?.getD 0) := by
  rw [logFront, h.qu, queueFront_of, ok_bind] at hq
  cases hq
  exact ⟨rfl, rfl⟩

theorem logPop_ok {ret : Nat} (h : q.Holds (ret :: vs)) (hq : logPop ret q = .ok (q', p')) :
    q'.Holds vs ∧ p' = .done ret (some ret) := by
  obtain ⟨hqu, hpushed, hsize⟩ := h
  rw [logPop, hqu, queueFront_of, ok_bind, queuePop_of (by omega), ok_bind] at hq
  cases hq
  refine ⟨⟨rfl, ?_, ?_⟩, rfl⟩
  · rw [hpushed, List.append_assoc]
    rfl
  · exact Nat.le_of_succ_le hsize

/-- **An access keeps what is known**, unless it is that of a `queue_ts_pop_blocking` that has found
`NULL`. -/
theorem queueTs_access {f : QueueLog → Except Fault (QueueLog × QueueTsPoint)}
    (hact : (queueTsAct p).body = some f) (hholds : q.Holds vs) (hknows : p.Knows vs)
    (hnull : p.NotNull q) (hf : f q = .ok (q', p')) : ∃ vs', q'.Holds vs' ∧ p'.Knows vs' := by
  cases p with
  | push newval =>
    cases hact
    obtain ⟨hholds', rfl⟩ := logPush_ok hholds hf
    exact ⟨_, hholds', trivial⟩
  | pop | test =>
    cases hact
    obtain ⟨rfl, rfl⟩ := logTest_ok hholds hf
    refine ⟨vs, hholds, ?_⟩
    cases vs with
    | nil => trivial
    | cons v vs => exact List.cons_ne_nil v vs
  | front blocking =>
    cases hact
    obtain ⟨rfl, rfl⟩ := logFront_ok hholds hf
    refine ⟨vs, hholds, ?_⟩
    cases vs with
    | nil => exact absurd rfl hknows
    | cons v vs => rfl
  | got blocking ret =>
    obtain ⟨rest, rfl⟩ : ∃ rest, vs = ret :: rest := List.head?_eq_some_iff.1 hknows
    have hpop : logPop ret q = .ok (q', p') := by
      cases blocking with
      | false =>
        cases hact
        exact hf
      | true =>
        cases hact
        rwa [logPopUnlessNull, if_pos (fun h => hnull (by rw [h]))] at hf
    obtain ⟨hholds', rfl⟩ := logPop_ok hholds hpop
    exact ⟨rest, hholds', rfl⟩
  | isempty =>
    cases hact
    obtain ⟨rfl, rfl⟩ := logTest_ok hholds hf
    rw [ite_self]
    exact ⟨vs, hholds, trivial⟩
  | signal | wait | leave | done ret removed => exact nomatch hact

theorem queueTs_spec :
    MonSpec queueTs (fun q => ∃ vs, q.Holds vs) (fun p q => ∃ vs, q.Holds vs ∧ p.Knows vs)
      QueueTsPoint.NotNull where
  start k q hgood := by
    obtain ⟨vs, hholds⟩ := hgood
    cases k <;> exact ⟨vs, hholds, trivial⟩
  access p p' f q q' hact hknow hnull hf := by
    obtain ⟨vs, hholds, hknows⟩ := hknow
    exact queueTs_access hact hholds hknows hnull hf
  wait p p' c hact := by
    cases p with
    | wait =>
      obtain ⟨-, rfl⟩ := MonAct.wait.inj hact
      exact ⟨fun q ⟨vs, hholds, _⟩ => ⟨vs, hholds⟩, fun q ⟨vs, hholds⟩ => ⟨vs, hholds, trivial⟩⟩
    | got blocking ret => cases blocking <;> exact nomatch hact
    | _ => exact nomatch hact
  signal p p' c hact := by
    cases p with
    | signal =>
      obtain ⟨-, rfl⟩ := MonAct.signal.inj hact
      exact ⟨fun q ⟨vs, hholds, _⟩ => ⟨vs, hholds⟩, fun q ⟨vs, hholds⟩ => ⟨vs, hholds, trivial⟩⟩
    | got blocking ret => cases blocking <;> exact nomatch hact
    | _ => exact nomatch hact
  release p q _ hknow := by
    obtain ⟨vs, hholds, -⟩ := hknow
    exact ⟨vs, hholds⟩

section
variable {T : Type} [DecidableEq T] {s s' : MonSys T Unit QueueLog QueueTsPoint}
  {tr : List (MonSys T Unit QueueLog QueueTsPoint × (T × MonOp QueueTsCall))}
  {a : T × MonOp QueueTsCall}

/-- What is known in a state of a run in which no `queue_ts_pop_blocking` has found `NULL`. -/
def QueueSafe (s : MonSys T Unit QueueLog QueueTsPoint) : Prop :=
  MonSafe (fun q => ∃ vs, q.Holds vs) (fun p q => ∃ vs, q.Holds vs ∧ p.Knows vs) s.cv s.obj s.pc

omit [DecidableEq T] in
theorem QueueSafe.holds (h : QueueSafe s) : ∃ vs, s.obj.Holds vs :=
  MonSafe.holds h id fun _ ⟨vs, hholds, _⟩ => ⟨vs, hholds⟩

omit [DecidableEq T] in
theorem QueueSafe.fifo (h : QueueSafe s) : QueueFifo s := by
  obtain ⟨vs, hqu, hpushed, hsize⟩ := h.holds
  refine ⟨⟨vs, hpushed.symm⟩, ?_, fun t ret removed hpc => ?_⟩
  · rw [hqu]
    exact hpushed
  · obtain ⟨vs, -, hknows⟩ := h.know hpc ⟨vs, hqu, hpushed, hsize⟩
    exact hknows

theorem QueueSafe.not_fifo (h : QueueSafe s) (hstep : MonStep queueTs s a s')
    (hnull : ¬ MonCond QueueTsPoint.NotNull s a) : ¬ QueueFifo s' := by
  obtain ⟨t, op⟩ := a
  obtain ⟨vs, hqu, hpushed, -⟩ := h.holds
  obtain ⟨rfl, hpc⟩ : op = .act ∧ s.pc t = some (.got true 0) := by
    simpa [MonCond, QueueTsPoint.NotNull] using hnull
  intro hfifo
  cases hstep.move with
  | access p p' f obj hp hact hidle hf =>
    cases hpc.symm.trans hp
    obtain rfl := MonAct.access.inj hact
    cases hf
    have hrest := hfifo.rest
    rw [hpushed, hqu] at hrest
    have hlen := congrArg List.length hrest
    simp [Queue.of, KList.of] at hlen
  | nested p p' f obj lk hp hact hidle hf hlk | wait p p' c cv hp hact hcv
  | signal p p' c cv hp hact hcv | release p cv hp hact hcv =>
    cases hpc.symm.trans hp
    cases hact

/-- **The queue is first in, first out exactly as long as no `queue_ts_pop_blocking` finds `NULL`.**
-/
theorem queueRun_fifo_iff (hrun : MonRun queueTs .init tr s)
    (hnull : ∀ e ∈ tr, MonCond QueueTsPoint.NotNull e.1 e.2) :
    QueueFifo s ∧
      ∀ a s', MonStep queueTs s a s' → (QueueFifo s' ↔ MonCond QueueTsPoint.NotNull s a) := by
  have hgood : ∃ vs, QueueLog.init.Holds vs := ⟨[], rfl, rfl, Nat.zero_le _⟩
  have hsafe : QueueSafe s := queueTs_spec.run hgood hrun hnull
  refine ⟨hsafe.fifo, fun a s' hstep => ⟨fun hfifo => ?_, fun hcond => ?_⟩⟩
  · by_contra hcond
    exact hsafe.not_fifo hstep hcond hfifo
  · exact QueueSafe.fifo (hsafe.step queueTs_spec hstep.move hcond)

end

/-- The history of these steps on a new queue. -/
def queueHistory (as : List (Bool × MonOp QueueTsCall)) :
    List (MonSys Bool Unit QueueLog QueueTsPoint × (Bool × MonOp QueueTsCall)) ×
      MonSys Bool Unit QueueLog QueueTsPoint :=
  Run.history (fun s a => monNext queueTs s a.1 a.2) (.init .init) as

/-- `queue_ts_push`, once it has the lock. -/
def pushSteps : List (MonOp QueueTsCall) := [.act, .act, .go, .go, .go, .go, .act]

/-- `queue_ts_pop_blocking`, up to its `lock_release`. -/
def popSteps : List (MonOp QueueTsCall) := [.start .popBlocking, .act, .act, .act]

/-- One thread pushes 7 and 8 and the other takes them.  When the first thread wants to push 8, it
has to wait for the lock. -/
def sevenThenEight : List (Bool × MonOp QueueTsCall) :=
  (.start (.push 7) :: pushSteps).map (false, ·) ++
    [(true, .start .popBlocking), (false, .start (.push 8))] ++
    [.act, .act, .act, .act].map (true, ·) ++ (.go :: pushSteps).map (false, ·) ++
    popSteps.map (true, ·)

theorem queueRun_fifo_iff_two :
    MonRun queueTs .init (queueHistory sevenThenEight).1 (queueHistory sevenThenEight).2 ∧
      (queueHistory sevenThenEight).2.obj.taken = [7, 8] ∧
      QueueFifo (queueHistory sevenThenEight).2 := by
  have hrun : MonRun queueTs .init (queueHistory sevenThenEight).1
      (queueHistory sevenThenEight).2 :=
    monRun_of_history _ (by decide +kernel)
  have hnull : ∀ e ∈ (queueHistory sevenThenEight).1, e.1.pc e.2.1 ≠ some (.got true 0) := by
    decide +kernel
  refine ⟨hrun, by decide +kernel, (queueRun_fifo_iff hrun fun e he hop p hp hgot => ?_).1⟩
  exact hnull e he (hgot ▸ hp)

/-- `NULL` is pushed, and `queue_ts_pop_blocking` returns without having removed it. -/
theorem not_queueFifo_null : ∃ as, MonRun queueTs .init (queueHistory as).1 (queueHistory as).2 ∧
    ¬ QueueFifo (queueHistory as).2 := by
  refine ⟨(.start (.push 0) :: pushSteps ++ popSteps).map (false, ·),
    monRun_of_history _ (by decide +kernel), fun hfifo => ?_⟩
  exact nomatch hfifo.removed false 0 none (by decide +kernel)

end JinxOS
