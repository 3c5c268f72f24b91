import JinxOS.Klib.ListNodes
import JinxOS.Lib.Refinement

/-!
# Lists and queues are sequences

Any sequence of calls on a list from `list_create`, with any comparators, and any sequence of calls
on a queue from `queue_create`.  `list_queue_refine` says that the calls return what they make of a
sequence, and that the list spells this sequence afterwards; for a queue that is first in, first
out.

The same is true of the lists that are given by their values: `klist_refined`.  Those are the ones
that the other modules use, and so they are what the nodes stand for.
-/

namespace JinxOS

open Refinement

/-! ## Calls -/

/-- A call.  `newnode` is what `kmalloc` returns. -/
inductive ListOp (α : Type)
  /-- `list_push_back(lst, newval)`. -/
  | pushBack (newnode : Nat) (newval : α)
  /-- `list_pop_front(lst)`. -/
  | popFront
  /-- `list_front(lst)`. -/
  | front
  /-- `list_find(lst, query, comparator)`. -/
  | find (query : α) (comparator : α → α → Int)
  /-- `list_remove(lst, query, comparator)`. -/
  | remove (query : α) (comparator : α → α → Int)

/-- A call on a queue. -/
inductive QueueOp (α : Type)
  /-- `queue_push(q, newval)`. -/
  | push (newnode : Nat) (newval : α)
  /-- `queue_pop(q)`. -/
  | pop
  /-- `queue_front(q)`. -/
  | front
  /-- `queue_isempty(q)`. -/
  | isempty
  /-- `queue_getsize(q)`. -/
  | getsize

/-- What a call returns. -/
inductive ListRes (α : Type)
  /-- Nothing. -/
  | void
  /-- An error number, or 0. -/
  | errno (e : Nat)
  /-- A value, or the null pointer. -/
  | value (v : Option α)
  /-- A number. -/
  | number (n : Nat)
  deriving DecidableEq

section
variable {α : Type}

/-- A call: what it returns, and the list after it. -/
def listCall (s : ListMem α) : ListOp α → Except Fault (ListRes α × ListMem α)
  | .pushBack newnode newval => do
    let (ret, s) ← s.listPushBack newnode newval
    .ok (.errno ret, s)
  | .popFront => do
    let s ← s.listPopFront
    .ok (.void, s)
  | .front => do
    let v ← s.listFront
    .ok (.value v, s)
  | .find query comparator => do
    let v ← s.listFind query comparator
    .ok (.value v, s)
  | .remove query comparator => do
    let (v, s) ← s.listRemove query comparator
    .ok (.value v, s)

/-- A call on a queue. -/
def queueCall (q : QueueMem α) : QueueOp α → Except Fault (ListRes α × QueueMem α)
  | .push newnode newval => do
    let (ret, q) ← q.queuePush newnode newval
    .ok (.errno ret, q)
  | .pop => do
    let q ← q.queuePop
    .ok (.void, q)
  | .front => do
    let v ← q.queueFront
    .ok (.value v, q)
  | .isempty => do
    let empty ← q.queueIsempty
    .ok (.number empty.toNat, q)
  | .getsize => do
    let n ← q.queueGetsize
    .ok (.number n, q)

/-- What `kmalloc` may return for a new node. -/
def FreshPtr (es : List (Nat × α)) (newnode : Nat) : Prop :=
  newnode < 2 ^ 32 ∧ newnode ∉ es.map Prod.fst

instance (es : List (Nat × α)) (newnode : Nat) : Decidable (FreshPtr es newnode) :=
  inferInstanceAs (Decidable (_ ∧ _))

/-- A new node at the end of a sequence, if there is memory for it. -/
def pushNode (es : List (Nat × α)) (newnode : Nat) (newval : α) : ListRes α × List (Nat × α) :=
  if newnode = 0 then (.errno enomem, es) else (.errno 0, es ++ [(newnode, newval)])

/-- New nodes are where the list has no node. -/
def ListOp.Pre (es : List (Nat × α)) : ListOp α → Prop
  | .pushBack newnode _ => FreshPtr es newnode
  | _ => True

/-- What a call does to the sequence, and what it returns. -/
def ListOp.next (es : List (Nat × α)) : ListOp α → ListRes α × List (Nat × α)
  | .pushBack newnode newval => pushNode es newnode newval
  | .popFront => (.void, es.tail)
  | .front => (.value (es.head?.map Prod.snd), es)
  | .find query comparator => (.value ((es.find? (Matches query comparator)).map Prod.snd), es)
  | .remove query comparator =>
    (.value ((es.find? (Matches query comparator)).map Prod.snd),
      es.eraseP (Matches query comparator))

/-- New nodes are where the queue has no node. -/
def QueueOp.Pre (es : List (Nat × α)) : QueueOp α → Prop
  | .push newnode _ => FreshPtr es newnode
  | _ => True

/-- What a call on a queue does to the sequence, and what it returns. -/
def QueueOp.next (es : List (Nat × α)) : QueueOp α → ListRes α × List (Nat × α)
  | .push newnode newval => pushNode es newnode newval
  | .pop => (.void, es.tail)
  | .front => (.value (es.head?.map Prod.snd), es)
  | .isempty => (.number es.isEmpty.toNat, es)
  | .getsize => (.number es.length, es)

instance ListOp.decidablePre (es : List (Nat × α)) : (op : ListOp α) → Decidable (op.Pre es)
  | .pushBack newnode _ => inferInstanceAs (Decidable (FreshPtr es newnode))
  | .popFront => inferInstanceAs (Decidable True)
  | .front => inferInstanceAs (Decidable True)
  | .find _ _ => inferInstanceAs (Decidable True)
  | .remove _ _ => inferInstanceAs (Decidable True)

instance QueueOp.decidablePre (es : List (Nat × α)) : (op : QueueOp α) → Decidable (op.Pre es)
  | .push newnode _ => inferInstanceAs (Decidable (FreshPtr es newnode))
  | .pop => inferInstanceAs (Decidable True)
  | .front => inferInstanceAs (Decidable True)
  | .isempty => inferInstanceAs (Decidable True)
  | .getsize => inferInstanceAs (Decidable True)

variable {s : ListMem α} {es : List (Nat × α)}

theorem ListRep.pushNode (h : ListRep s es) {newnode : Nat} (hfresh : FreshPtr es newnode)
    (newval : α) :
    ∃ ret s', s.listPushBack newnode newval = .ok (ret, s') ∧
      (JinxOS.pushNode es newnode newval).1 = .errno ret ∧
      ListRep s' (JinxOS.pushNode es newnode newval).2 := by
  rw [JinxOS.pushNode]
  by_cases hnull : newnode = 0
  · subst hnull
    exact ⟨enomem, s, h.push_null newval, rfl, h⟩
  · rw [if_neg hnull]
    obtain ⟨s', hpush, hrep⟩ := h.push hnull hfresh.1 hfresh.2 newval
    exact ⟨0, s', hpush, rfl, hrep⟩

/-- **A call does to the list what it does to the sequence**, and returns what it should. -/
theorem ListRep.call (h : ListRep s es) (op : ListOp α) (hpre : op.Pre es) :
    ∃ s', listCall s op = .ok ((op.next es).1, s') ∧ ListRep s' (op.next es).2 := by
  cases op with
  | pushBack newnode newval =>
    obtain ⟨ret, s', hpush, hret, hrep⟩ := h.pushNode hpre newval
    refine ⟨s', ?_, hrep⟩
    rw [listCall, hpush, ok_bind, ListOp.next, hret]
  | popFront =>
    obtain ⟨s', hpop, hrep⟩ := h.popFront
    exact ⟨s', by rw [listCall, hpop, ok_bind]; rfl, hrep⟩
  | front => exact ⟨s, by rw [listCall, h.front, ok_bind]; rfl, h⟩
  | find query comparator =>
    exact ⟨s, by rw [listCall, h.find query comparator, ok_bind]; rfl, h⟩
  | remove query comparator =>
    obtain ⟨s', hremove, hrep⟩ := h.remove query comparator
    exact ⟨s', by rw [listCall, hremove, ok_bind]; rfl, hrep⟩

/-- A queue represents the sequence of its list. -/
def QueueRep (q : QueueMem α) (es : List (Nat × α)) : Prop :=
  q.datatype = queueType ∧ ListRep q.vals es

theorem QueueRep.create : QueueRep (.queueCreate : QueueMem α) [] := ⟨rfl, .create⟩

theorem QueueRep.assertQueue_eq {q : QueueMem α} (h : QueueRep q es) : q.assertQueue = .ok () := by
  rw [QueueMem.assertQueue, h.1, beq_self_eq_true, assert_true]

/-- **A call does to the queue what it does to the sequence**, and returns what it should. -/
theorem QueueRep.call {q : QueueMem α} (h : QueueRep q es) (op : QueueOp α) (hpre : op.Pre es) :
    ∃ q', queueCall q op = .ok ((op.next es).1, q') ∧ QueueRep q' (op.next es).2 := by
  have hassert := h.assertQueue_eq
  obtain ⟨hdata, hlist⟩ := h
  cases op with
  | push newnode newval =>
    obtain ⟨ret, vals, hpush, hret, hrep⟩ := hlist.pushNode hpre newval
    refine ⟨{ q with vals := vals }, ?_, hdata, hrep⟩
    rw [queueCall, QueueMem.queuePush, hassert, ok_bind, hpush, ok_bind, ok_bind,
      QueueOp.next, hret]
  | pop =>
    obtain ⟨vals, hpop, hrep⟩ := hlist.popFront
    refine ⟨{ q with vals := vals }, ?_, hdata, hrep⟩
    rw [queueCall, QueueMem.queuePop, hassert, ok_bind, hpop, ok_bind, ok_bind]
    rfl
  | front =>
    refine ⟨q, ?_, hdata, hlist⟩
    rw [queueCall, QueueMem.queueFront, hassert, ok_bind, hlist.front, ok_bind]
    rfl
  | isempty =>
    refine ⟨q, ?_, hdata, hlist⟩
    rw [queueCall, QueueMem.queueIsempty, hassert, ok_bind, ListMem.listIsempty,
      hlist.assertList_eq, ok_bind, ok_bind, hlist.size]
    cases es <;> rfl
  | getsize =>
    refine ⟨q, ?_, hdata, hlist⟩
    rw [queueCall, QueueMem.queueGetsize, hassert, ok_bind, ListMem.listGetsize,
      hlist.assertList_eq, ok_bind, ok_bind, hlist.size]
    rfl

/-! ### Lists that are given by their values -/

/-- A call on a list that is given by its values; there is memory for new nodes. -/
def klistCall (l : KList α) : ListOp α → Except Fault (ListRes α × KList α)
  | .pushBack _ newval => do
    let l ← listPushBack l newval
    .ok (.errno 0, l)
  | .popFront => do
    let l ← listPopFront l
    .ok (.void, l)
  | .front => do
    let v ← listFront l
    .ok (.value v, l)
  | .find query comparator => .ok (.value (listFind l query comparator), l)
  | .remove query comparator =>
    let (v, l) := listRemove l query comparator
    .ok (.value v, l)

theorem klistCall_of (h : ListRep s es) (op : ListOp α) (hpre : op.Pre es)
    (halloc : ∀ newval, op ≠ .pushBack 0 newval) :
    klistCall (.of (es.map Prod.snd)) op =
      .ok ((op.next es).1, .of ((op.next es).2.map Prod.snd)) := by
  have hlt : (es.map Prod.snd).length < 2 ^ 32 := by
    rw [List.length_map]
    exact h.length_lt
  have hfind : ∀ (query : α) (comparator : α → α → Int),
      listFind (.of (es.map Prod.snd)) query comparator =
        (es.find? (Matches query comparator)).map Prod.snd :=
    fun query comparator => List.find?_map
  cases op with
  | pushBack newnode newval =>
    have hnull : newnode ≠ 0 := fun hnull => halloc newval (hnull ▸ rfl)
    obtain ⟨s', -, hrep⟩ := h.push hnull hpre.1 hpre.2 newval
    have hroom := hrep.length_lt
    rw [List.length_append, List.length_singleton] at hroom
    rw [klistCall, listPushBack_of (by rwa [List.length_map]), ok_bind, ListOp.next,
      JinxOS.pushNode, if_neg hnull, List.map_append]
    rfl
  | popFront =>
    rw [klistCall, ListOp.next]
    cases es with
    | nil => rfl
    | cons e es =>
      rw [List.map_cons, listPopFront_of hlt, ok_bind, List.tail_cons]
  | front =>
    rw [klistCall, listFront_of, ok_bind, List.head?_map]
    rfl
  | find query comparator =>
    rw [klistCall, hfind]
    rfl
  | remove query comparator =>
    rw [klistCall, listRemove_of hlt, hfind, List.eraseP_map]
    rfl

end

/-! ## All sequences of calls -/

/-- What is known of a list that stands for a sequence. -/
structure ListSpec {α : Type} (s : ListMem α) (es : List (Nat × α)) : Prop where
  /-- The nodes reachable from `head` spell the sequence. -/
  cells : Segment (NodeAt s.nodes) s.head es 0
  /-- `tail` is the last node, or null. -/
  tail : s.tail = lastPtr es
  /-- `size` is the length. -/
  size : s.size = es.length
  /-- `list_assertvalid` does not fail. -/
  valid : s.listAssertvalid = .ok ()

/-- **Lists and queues are sequences.**  Any sequence of calls returns what the calls make of a
sequence, and leaves a list that spells it; and any sequence of calls on a queue does, which is
first in, first out. -/
theorem list_queue_refine (α : Type) :
    (∀ ops : List (ListOp α), Legal ListOp.Pre ListOp.next [] ops →
      ∃ s', runCalls listCall .listCreate ops = .ok ((replay ListOp.next [] ops).1, s') ∧
        ListSpec s' (replay ListOp.next [] ops).2) ∧
    ∀ ops : List (QueueOp α), Legal QueueOp.Pre QueueOp.next [] ops →
      ∃ q', runCalls queueCall .queueCreate ops = .ok ((replay QueueOp.next [] ops).1, q') ∧
        ListSpec q'.vals (replay QueueOp.next [] ops).2 := by
  constructor
  · intro ops hlegal
    obtain ⟨s', hrun, h⟩ :=
      runCalls_eq (R := ListRep) (fun _ _ op hr hpre => hr.call op hpre) .create hlegal
    exact ⟨s', hrun, h.cells, h.tail, h.size, h.valid⟩
  · intro ops hlegal
    obtain ⟨q', hrun, -, h⟩ :=
      runCalls_eq (R := QueueRep) (fun _ _ op hr hpre => hr.call op hpre) .create hlegal
    exact ⟨q', hrun, h.cells, h.tail, h.size, h.valid⟩

/-- A list and a queue of numbers.  The last node is removed, then the first, and then the only one,
and `kmalloc` fails once. -/
theorem list_queue_refine_numbers :
    (∃ s' : ListMem Int, runCalls listCall .listCreate
        [.pushBack 16 7, .pushBack 32 8, .pushBack 48 9, .remove 9 fun x y => x - y,
          .remove 7 fun x y => x - y, .find 8 fun x y => x - y, .remove 8 fun x y => x - y,
          .pushBack 0 1, .pushBack 16 5, .front] =
      .ok ([.errno 0, .errno 0, .errno 0, .value (some 9), .value (some 7), .value (some 8),
        .value (some 8), .errno enomem, .errno 0, .value (some 5)], s') ∧ s'.tail = 16) ∧
    ∃ q' : QueueMem Nat, runCalls queueCall .queueCreate
        [.push 16 1, .push 32 2, .front, .pop, .front, .getsize] =
      .ok ([.errno 0, .errno 0, .value (some 1), .void, .value (some 2), .number 1], q') := by
  obtain ⟨s', hlist, hspec⟩ := (list_queue_refine Int).1
    [.pushBack 16 7, .pushBack 32 8, .pushBack 48 9, .remove 9 fun x y => x - y,
      .remove 7 fun x y => x - y, .find 8 fun x y => x - y, .remove 8 fun x y => x - y,
      .pushBack 0 1, .pushBack 16 5, .front] (by decide)
  obtain ⟨q', hqueue, -⟩ := (list_queue_refine Nat).2
    [.push 16 1, .push 32 2, .front, .pop, .front, .getsize] (by decide)
  exact ⟨⟨s', hlist.trans rfl, hspec.tail.trans rfl⟩, q', hqueue.trans rfl⟩

/-- **The nodes stand for the values.**  Any sequence of calls for which there is memory returns the
same on a list of nodes and on a list that is given by its values, and the nodes spell the values
afterwards. -/
theorem klist_refined {α : Type} {ops : List (ListOp α)} (hlegal :
      Legal (fun es op => op.Pre es ∧ ∀ newval, op ≠ .pushBack 0 newval) ListOp.next [] ops) :
    ∃ rs s es, runCalls listCall .listCreate ops = .ok (rs, s) ∧ ListRep s es ∧
      runCalls klistCall listCreate ops = .ok (rs, .of (es.map Prod.snd)) := by
  have hstep : ∀ (k : KList α) es op, (k = .of (es.map Prod.snd) ∧ ∃ s, ListRep s es) →
      op.Pre es ∧ (∀ newval, op ≠ .pushBack 0 newval) →
      ∃ k', klistCall k op = .ok ((op.next es).1, k') ∧ k' = .of ((op.next es).2.map Prod.snd) ∧
        ∃ s, ListRep s (op.next es).2 := by
    rintro _ es op ⟨rfl, s, hr⟩ ⟨hpre, halloc⟩
    obtain ⟨s', -, hr'⟩ := hr.call op hpre
    exact ⟨_, klistCall_of hr op hpre halloc, rfl, s', hr'⟩
  obtain ⟨s, hrun, hrep⟩ := runCalls_eq (fun _ _ op (hr : ListRep _ _) hpre => hr.call op hpre.1)
    .create hlegal
  obtain ⟨_, hrun', rfl, -⟩ := runCalls_eq hstep ⟨rfl, _, .create⟩ hlegal
  exact ⟨_, s, _, hrun, hrep, hrun'⟩

/-- Three values are added; one is found, the last is removed, and the first is taken. -/
def threeNumbers : List (ListOp Int) :=
  [.pushBack 16 7, .pushBack 32 8, .pushBack 48 9, .find 8 fun x y => x - y,
    .remove 9 fun x y => x - y, .popFront, .front]

theorem klist_refined_numbers : ∃ rs s es,
    runCalls listCall .listCreate threeNumbers = .ok (rs, s) ∧
    ListRep s es ∧ rs = [.errno 0, .errno 0, .errno 0, .value (some 8), .value (some 9),
      .void, .value (some 8)] ∧
    runCalls klistCall listCreate threeNumbers = .ok (rs, .of (es.map Prod.snd)) := by
  have hlegal : Legal (fun es op => op.Pre es ∧ ∀ newval, op ≠ .pushBack 0 newval) ListOp.next []
      threeNumbers :=
    ⟨⟨by decide, nofun⟩, ⟨by decide, nofun⟩, ⟨by decide, nofun⟩, ⟨by decide, nofun⟩,
      ⟨by decide, nofun⟩, ⟨by decide, nofun⟩, ⟨by decide, nofun⟩, trivial⟩
  obtain ⟨rs, s, es, hrun, hrep, hvals⟩ := klist_refined hlegal
  refine ⟨rs, s, es, hrun, hrep, ?_, hvals⟩
  exact (congrArg Prod.fst (Except.ok.inj hvals)).symm.trans rfl

end JinxOS
