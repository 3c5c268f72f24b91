import JinxOS.Klib.Queue
import JinxOS.Lib.Segment
import Mathlib.Data.List.Perm.Subperm

/-!
# The nodes of lists and queues

The code of `klib/list.c` and `klib/queue.c` once more, with the nodes, their pointers and the
canaries. `Klib/List.lean` and `Klib/Queue.lean` give a list by its values; here the values are what
the nodes spell that are reachable from `head`, and `tail` and `size` are fields that the code keeps
up to date on its own.  `list_remove` does so in four ways, as the node is the first, the last, both
or neither.

A list stands for a sequence of nodes, each with its address and value (`ListRep`).  Each function
of the list has one lemma in `ListRep` that says what it returns and what sequence is there
afterwards.

`kmalloc` may return any address at which the list has no node, or the null pointer.  Addresses are
below `2 ^ 32` and those of different nodes are different, so `size` does not wrap around.
-/

namespace JinxOS

open List (map_append length_append map_cons length_cons append_assoc)

/-! ## The code -/

/-- `LISTTYPE`. -/
def listType : Nat := 1111

/-- `LISTNODETYPE`. -/
def listnodeType : Nat := 1112

/-- `struct listnode`; the null pointer is 0. -/
structure Listnode (α : Type) where
  datatype : Nat
  val : α
  next : Nat

/-- `struct list`, and the nodes that have been allocated and not been freed. -/
structure ListMem (α : Type) where
  /-- The nodes, by their addresses. -/
  nodes : Nat → Option (Listnode α)
  datatype : Nat
  head : Nat
  tail : Nat
  size : Nat

namespace ListMem

variable {α : Type}

/-- The node that a pointer points to. -/
def node (s : ListMem α) (p : Nat) : Except Fault (Listnode α) :=
  if p = 0 then .error .nullDeref
  else match s.nodes p with
    | none => .error .useAfterFree
    | some n => .ok n

/-- A node is written, or freed. -/
def setNode (s : ListMem α) (p : Nat) (n : Option (Listnode α)) : ListMem α :=
  { s with nodes := Function.update s.nodes p n }

/-- `ASSERT_LIST(lst)`. -/
def assertList (s : ListMem α) : Except Fault Unit :=
  assert "lst->datatype == LISTTYPE" (s.datatype == listType)

/-- `ASSERT_LISTNODE(node)`, and the node. -/
def assertListnode (s : ListMem α) (p : Nat) : Except Fault (Listnode α) := do
  let n ← s.node p
  assert "node->datatype == LISTNODETYPE" (n.datatype == listnodeType)
  .ok n

/-- `list_create`. -/
def listCreate : ListMem α := ⟨fun _ => none, listType, 0, 0, 0⟩

/-- `listnode_create`, where `kmalloc` returns `newnode`, which is not null. -/
def listnodeCreate (s : ListMem α) (newnode : Nat) (newval : α) : ListMem α :=
  s.setNode newnode (some ⟨listnodeType, newval, 0⟩)

/-- `list_push_back`: the error number, and the list. -/
def listPushBack (s : ListMem α) (newnode : Nat) (newval : α) : Except Fault (Nat × ListMem α) := do
  s.assertList
  if newnode = 0 then .ok (enomem, s)
  else do
    let s := s.listnodeCreate newnode newval
    let _ ← s.assertListnode newnode
    let s ← (if s.size = 0 then .ok { s with head := newnode }
      else do
        let tail ← s.assertListnode s.tail
        .ok (s.setNode s.tail (some { tail with next := newnode })))
    .ok (0, { s with tail := newnode, size := Word.add s.size 1 })

/-- `list_pop_front`. -/
def listPopFront (s : ListMem α) : Except Fault (ListMem α) := do
  s.assertList
  if s.size = 0 then .ok s
  else do
    let oldHead ← s.assertListnode s.head
    let p := s.head
    let s := { s with head := oldHead.next, size := Word.sub s.size 1 }
    let s := { s with tail := if s.size = 0 then 0 else s.tail }
    .ok (s.setNode p none)

/-- `list_front`; the null pointer of an empty list is `none`. -/
def listFront (s : ListMem α) : Except Fault (Option α) := do
  s.assertList
  if s.size = 0 then .ok none
  else do
    assert "lst->head != NULL" (s.head != 0)
    let head ← s.assertListnode s.head
    .ok (some head.val)

/-- The loop of `list_find`. -/
def findLoop (s : ListMem α) (query : α) (comparator : α → α → Int) :
    Nat → Nat → Except Fault (Option α)
  | 0, _ => .error .diverges
  | fuel + 1, p =>
    if p = 0 then .ok none
    else do
      let n ← s.assertListnode p
      if comparator n.val query = 0 then .ok (some n.val)
      else findLoop s query comparator fuel n.next

/-- `list_find`. -/
def listFind (s : ListMem α) (query : α) (comparator : α → α → Int) : Except Fault (Option α) := do
  s.assertList
  findLoop s query comparator loopFuel s.head

/-- What `list_remove` makes the pointer to the node that matches, which is `head` or in the node at
`q`. -/
def relink (s : ListMem α) (q next : Nat) : Except Fault (ListMem α) :=
  if q = 0 then .ok { s with head := next }
  else do
    let m ← s.node q
    .ok (s.setNode q (some { m with next := next }))

/-- What `list_remove` does for the node that matches, which is at `p`. -/
def unlinkNode (s : ListMem α) (n : Listnode α) (p q : Nat) : Except Fault (ListMem α) := do
  let s ← s.relink q n.next
  let s := { s with tail := if p = s.tail then q else s.tail }
  let s := s.setNode p none
  .ok { s with size := Word.sub s.size 1 }

/-- The loop of `list_remove`. -/
def removeLoop (s : ListMem α) (query : α) (comparator : α → α → Int) :
    Nat → Nat → Nat → Except Fault (Option α × ListMem α)
  | 0, _, _ => .error .diverges
  | fuel + 1, p, q =>
    if p = 0 then .ok (none, s)
    else do
      let n ← s.assertListnode p
      if comparator n.val query = 0 then do
        let s ← s.unlinkNode n p q
        .ok (some n.val, s)
      else removeLoop s query comparator fuel n.next p

/-- `list_remove`: the value of the first node that matches, and the list without this node. -/
def listRemove (s : ListMem α) (query : α) (comparator : α → α → Int) :
    Except Fault (Option α × ListMem α) := do
  s.assertList
  let (res, s) ← removeLoop s query comparator loopFuel s.head 0
  .ok (res, { s with tail := if s.size = 0 then 0 else s.tail })

/-- `list_isempty`. -/
def listIsempty (s : ListMem α) : Except Fault Bool := do
  s.assertList
  .ok (s.size == 0)

/-- `list_getsize`. -/
def listGetsize (s : ListMem α) : Except Fault Nat := do
  s.assertList
  .ok s.size

/-- The loop of `list_assertvalid`: `count` and `prev` after it. -/
def validLoop (s : ListMem α) : Nat → Nat → Nat → Nat → Except Fault (Nat × Nat)
  | 0, _, _, _ => .error .diverges
  | fuel + 1, p, count, prev =>
    if p = 0 then .ok (count, prev)
    else do
      let n ← s.assertListnode p
      validLoop s fuel n.next (Word.add count 1) p

/-- `list_assertvalid`. -/
def listAssertvalid (s : ListMem α) : Except Fault Unit := do
  s.assertList
  let (count, prev) ← validLoop s loopFuel s.head 0 0
  if count = 0 then assert "lst->tail == NULL" (s.tail == 0)
  else assert "prev == lst->tail" (prev == s.tail)
  assert "count == lst->size" (count == s.size)

end ListMem

/-- `struct queue`, with its list. -/
structure QueueMem (α : Type) where
  datatype : Nat
  vals : ListMem α

namespace QueueMem

variable {α : Type}

/-- `ASSERT_QUEUE(q)`. -/
def assertQueue (q : QueueMem α) : Except Fault Unit :=
  assert "q->datatype == QUEUETYPE" (q.datatype == queueType)

/-- `queue_create`. -/
def queueCreate : QueueMem α := ⟨queueType, .listCreate⟩

/-- `queue_push`, where `kmalloc` returns `newnode`. -/
def queuePush (q : QueueMem α) (newnode : Nat) (newval : α) : Except Fault (Nat × QueueMem α) := do
  q.assertQueue
  let (ret, vals) ← q.vals.listPushBack newnode newval
  .ok (ret, { q with vals := vals })

/-- `queue_pop`. -/
def queuePop (q : QueueMem α) : Except Fault (QueueMem α) := do
  q.assertQueue
  let vals ← q.vals.listPopFront
  .ok { q with vals := vals }

/-- `queue_front`. -/
def queueFront (q : QueueMem α) : Except Fault (Option α) := do
  q.assertQueue
  q.vals.listFront

/-- `queue_isempty`. -/
def queueIsempty (q : QueueMem α) : Except Fault Bool := do
  q.assertQueue
  q.vals.listIsempty

/-- `queue_getsize`. -/
def queueGetsize (q : QueueMem α) : Except Fault Nat := do
  q.assertQueue
  q.vals.listGetsize

end QueueMem

/-! ## Sequences of nodes -/

section
variable {α : Type}

/-- There is a node at the address, with this value and pointer. -/
def NodeAt (nodes : Nat → Option (Listnode α)) (p : Nat) (v : α) (q : Nat) : Prop :=
  (p ≠ 0 ∧ p < 2 ^ 32) ∧ nodes p = some ⟨listnodeType, v, q⟩

/-- The address of the last node, or the null pointer. -/
def lastPtr (es : List (Nat × α)) : Nat := (es.getLast?.map Prod.fst).getD 0

/-- The list represents a sequence of nodes. -/
structure ListRep (s : ListMem α) (es : List (Nat × α)) : Prop where
  /-- The canary. -/
  datatype : s.datatype = listType
  /-- The nodes reachable from `head`. -/
  cells : Segment (NodeAt s.nodes) s.head es 0
  /-- Different nodes have different addresses. -/
  nodup : (es.map Prod.fst).Nodup
  /-- `tail` is the last node. -/
  tail : s.tail = lastPtr es
  /-- `size` is the number of nodes. -/
  size : s.size = es.length

variable {s : ListMem α} {nodes : Nat → Option (Listnode α)} {es : List (Nat × α)} {e : Nat × α}
  {p q r : Nat} {v : α}

@[simp] theorem lastPtr_nil : lastPtr ([] : List (Nat × α)) = 0 := rfl

@[simp] theorem lastPtr_concat (es : List (Nat × α)) (e : Nat × α) : lastPtr (es ++ [e]) = e.1 := by
  simp [lastPtr]

theorem NodeAt.update_of_ne {n : Option (Listnode α)} (h : NodeAt nodes p v q) (hne : p ≠ r) :
    NodeAt (Function.update nodes r n) p v q :=
  ⟨h.1, (Function.update_of_ne hne _ _).trans h.2⟩

theorem NodeAt.update_self (h : NodeAt nodes p v q) :
    NodeAt (Function.update nodes p (some ⟨listnodeType, v, r⟩)) p v r :=
  ⟨h.1, Function.update_self _ _ _⟩

theorem NodeAt.node_eq (h : NodeAt s.nodes p v q) : s.node p = .ok ⟨listnodeType, v, q⟩ := by
  rw [ListMem.node, if_neg h.1.1, h.2]

theorem NodeAt.assertListnode_eq (h : NodeAt s.nodes p v q) :
    s.assertListnode p = .ok ⟨listnodeType, v, q⟩ := by
  rw [ListMem.assertListnode, h.node_eq, ok_bind, beq_self_eq_true, assert_true, ok_bind]

theorem segment_update {n : Option (Listnode α)} (h : Segment (NodeAt nodes) p es q)
    (hr : r ∉ es.map Prod.fst) : Segment (NodeAt (Function.update nodes r n)) p es q := by
  refine h.mono fun e he q hnode => hnode.update_of_ne ?_
  rintro rfl
  exact hr (List.mem_map_of_mem he)

namespace ListRep

theorem assertList_eq (h : ListRep s es) : s.assertList = .ok () := by
  rw [ListMem.assertList, h.datatype, beq_self_eq_true, assert_true]

theorem length_lt (h : ListRep s es) : es.length < 2 ^ 32 := by
  have hsub : es.map Prod.fst ⊆ List.range' 1 (2 ^ 32 - 1) := by
    intro p hp
    obtain ⟨e, he, rfl⟩ := List.mem_map.1 hp
    obtain ⟨q, ⟨hpos, hlt⟩, -⟩ := h.cells.forall_mem e he
    rw [List.mem_range'_1]
    omega
  have hle := (h.nodup.subperm hsub).length_le
  rw [List.length_map, List.length_range'] at hle
  omega

theorem size_eq_zero (h : ListRep s es) : s.size = 0 ↔ es = [] := by
  rw [h.size, List.length_eq_zero_iff]

theorem size_ne_zero (h : ListRep s (e :: es)) : s.size ≠ 0 := by
  rw [h.size]
  exact Nat.succ_ne_zero _

theorem create : ListRep (.listCreate : ListMem α) [] :=
  ⟨rfl, rfl, List.nodup_nil, rfl, rfl⟩

theorem head (h : ListRep s (e :: es)) : s.head = e.1 ∧ ∃ q, NodeAt s.nodes e.1 e.2 q ∧
    Segment (NodeAt s.nodes) q es 0 :=
  segment_cons.1 h.cells

/-! ### `list_push_back` -/

theorem push (h : ListRep s es) (hp : p ≠ 0) (hlt : p < 2 ^ 32) (hnew : p ∉ es.map Prod.fst)
    (v : α) : ∃ s', s.listPushBack p v = .ok (0, s') ∧ ListRep s' (es ++ [(p, v)]) := by
  have hnode : NodeAt (s.listnodeCreate p v).nodes p v 0 := ⟨⟨hp, hlt⟩, Function.update_self _ _ _⟩
  have hcells : Segment (NodeAt (s.listnodeCreate p v).nodes) s.head es 0 :=
    segment_update h.cells hnew
  have hnodup : ((es ++ [(p, v)]).map Prod.fst).Nodup := by
    rw [map_append, List.map_singleton]
    refine List.nodup_append.2 ⟨h.nodup, List.nodup_singleton p, ?_⟩
    rintro x hx y hy rfl
    obtain rfl := List.mem_singleton.1 hy
    exact hnew hx
  -- the new list has fewer nodes than addresses, too
  have hsize : ∀ s' : ListMem α, s'.datatype = listType →
      Segment (NodeAt s'.nodes) s'.head (es ++ [(p, v)]) 0 → s'.tail = p →
      s'.size = Word.add s.size 1 → ListRep s' (es ++ [(p, v)]) := by
    intro s' hdata hseg htail hsize
    have hroom := (⟨hdata, hseg, hnodup, htail.trans (lastPtr_concat es (p, v)).symm, rfl⟩ :
      ListRep { s' with size := (es ++ [(p, v)]).length } (es ++ [(p, v)])).length_lt
    refine ⟨hdata, hseg, hnodup, htail.trans (lastPtr_concat es (p, v)).symm, ?_⟩
    rw [length_append, List.length_singleton] at hroom ⊢
    rw [hsize, h.size, Word.add_eq hroom]
  rw [ListMem.listPushBack, h.assertList_eq, ok_bind, if_neg hp]
  dsimp only
  rw [hnode.assertListnode_eq, ok_bind]
  rcases List.eq_nil_or_concat es with rfl | ⟨es0, t, rfl⟩
  · rw [if_pos (show (s.listnodeCreate p v).size = 0 from h.size), ok_bind]
    exact ⟨_, rfl, hsize _ h.datatype (segment_cons.2 ⟨rfl, 0, hnode, rfl⟩) rfl rfl⟩
  · rw [List.concat_eq_append] at *
    have hne : t.1 ≠ p := by
      rintro rfl
      exact hnew (by simp)
    obtain ⟨hbefore, hlast⟩ := segment_concat.1 hcells
    have htail : (s.listnodeCreate p v).tail = t.1 := h.tail.trans (lastPtr_concat es0 t)
    have hnot : t.1 ∉ es0.map Prod.fst := by
      have hnd := h.nodup
      rw [map_append, List.map_singleton] at hnd
      exact fun hin => (List.nodup_append.1 hnd).2.2 t.1 hin t.1 List.mem_cons_self rfl
    rw [if_neg (show (s.listnodeCreate p v).size ≠ 0 by
      rw [show (s.listnodeCreate p v).size = s.size from rfl, h.size]; simp), htail,
      hlast.assertListnode_eq, ok_bind, ok_bind]
    refine ⟨_, rfl, hsize _ h.datatype ?_ rfl rfl⟩
    exact segment_concat.2 ⟨segment_concat.2 ⟨segment_update hbefore hnot, hlast.update_self⟩,
      hnode.update_of_ne hne.symm⟩

theorem push_null (h : ListRep s es) (v : α) : s.listPushBack 0 v = .ok (enomem, s) := by
  rw [ListMem.listPushBack, h.assertList_eq, ok_bind, if_pos rfl]

/-! ### `list_pop_front` and `list_front` -/

theorem popFront (h : ListRep s es) : ∃ s', s.listPopFront = .ok s' ∧ ListRep s' es.tail := by
  rw [ListMem.listPopFront, h.assertList_eq, ok_bind]
  cases es with
  | nil => exact ⟨s, if_pos h.size, h⟩
  | cons e es =>
    obtain ⟨hhead, q, hnode, hrest⟩ := h.head
    obtain ⟨hnot, hnodup⟩ := List.nodup_cons.1 (map_cons ▸ h.nodup)
    have hsub : Word.sub s.size 1 = es.length := by
      rw [h.size, Word.sub_eq (by simp) h.length_lt, length_cons, Nat.add_sub_cancel]
    rw [if_neg h.size_ne_zero, hhead, hnode.assertListnode_eq, ok_bind]
    rw [hsub]
    refine ⟨_, rfl, ?_⟩
    cases es with
    | nil => exact ⟨h.datatype, segment_update hrest hnot, hnodup, rfl, rfl⟩
    | cons e' es =>
      rw [if_neg (by simp)]
      exact ⟨h.datatype, segment_update hrest hnot, hnodup, h.tail.trans (by simp [lastPtr]), rfl⟩

theorem front (h : ListRep s es) : s.listFront = .ok (es.head?.map Prod.snd) := by
  rw [ListMem.listFront, h.assertList_eq, ok_bind]
  cases es with
  | nil => exact if_pos h.size
  | cons e es =>
    obtain ⟨hhead, q, hnode, -⟩ := h.head
    rw [if_neg h.size_ne_zero, hhead, bne_iff_ne.2 hnode.1.1, assert_true, ok_bind,
      hnode.assertListnode_eq, ok_bind]
    rfl

end ListRep

/-! ### `list_find` -/

variable (query : α) (comparator : α → α → Int)

/-- The comparator matches the value of a node. -/
def Matches (e : Nat × α) : Bool := comparator e.2 query = 0

theorem findLoop_eq {fuel : Nat} (h : Segment (NodeAt s.nodes) p es 0) (hf : es.length < fuel) :
    s.findLoop query comparator fuel p =
      .ok ((es.find? (Matches query comparator)).map Prod.snd) := by
  induction es generalizing p fuel with
  | nil =>
    obtain ⟨fuel, rfl⟩ := Nat.exists_eq_add_of_lt hf
    rw [ListMem.findLoop, if_pos (segment_nil.1 h)]
    rfl
  | cons e es ih =>
    obtain ⟨fuel, rfl⟩ := Nat.exists_eq_add_of_lt hf
    obtain ⟨rfl, q, hnode, hrest⟩ := segment_cons.1 h
    rw [ListMem.findLoop, if_neg hnode.1.1, hnode.assertListnode_eq, ok_bind]
    by_cases hm : comparator e.2 query = 0
    · rw [if_pos hm, List.find?_cons_of_pos (by simpa [Matches] using hm)]
      rfl
    · rw [if_neg hm, List.find?_cons_of_neg (by simpa [Matches] using hm)]
      exact ih hrest (Nat.lt_of_succ_lt_succ hf)

theorem ListRep.find (h : ListRep s es) : s.listFind query comparator =
    .ok ((es.find? (Matches query comparator)).map Prod.snd) := by
  rw [ListMem.listFind, h.assertList_eq, ok_bind]
  exact findLoop_eq query comparator h.cells h.length_lt

/-! ### `list_remove` -/

section
variable {es1 es2 : List (Nat × α)}

theorem relink_eq (hcells : Segment (NodeAt s.nodes) s.head (es1 ++ e :: es2) 0)
    (hnodup : ((es1 ++ es2).map Prod.fst).Nodup) (hnode : NodeAt s.nodes e.1 e.2 q) :
    ∃ s', s.relink (lastPtr es1) q = .ok s' ∧ Segment (NodeAt s'.nodes) s'.head (es1 ++ es2) 0 ∧
      s'.datatype = s.datatype ∧ s'.tail = s.tail ∧ s'.size = s.size := by
  obtain ⟨m, hbefore, hbehind⟩ := segment_append.1 hcells
  obtain ⟨rfl, q', hnode', hrest⟩ := segment_cons.1 hbehind
  obtain rfl : q' = q := congrArg Listnode.next (Option.some.inj (hnode'.2.symm.trans hnode.2))
  rw [ListMem.relink]
  rcases List.eq_nil_or_concat es1 with rfl | ⟨es0, b, rfl⟩
  · exact ⟨_, if_pos rfl, hrest, rfl, rfl, rfl⟩
  · rw [List.concat_eq_append] at *
    rw [append_assoc, List.singleton_append, map_append, map_cons, List.nodup_middle,
      List.nodup_cons, List.mem_append, not_or] at hnodup
    obtain ⟨hinit, hb⟩ := segment_concat.1 hbefore
    rw [lastPtr_concat, if_neg hb.1.1, hb.node_eq, ok_bind]
    refine ⟨_, rfl, ?_, rfl, rfl, rfl⟩
    refine segment_append.2 ⟨q', segment_concat.2 ⟨segment_update hinit hnodup.1.1, hb.update_self⟩,
      ?_⟩
    exact segment_update hrest hnodup.1.2

theorem lastPtr_remove (hnot : e.1 ∉ es2.map Prod.fst) :
    (if e.1 = lastPtr (es1 ++ e :: es2) then lastPtr es1 else lastPtr (es1 ++ e :: es2)) =
      lastPtr (es1 ++ es2) := by
  rcases List.eq_nil_or_concat es2 with rfl | ⟨es2, t, rfl⟩
  · rw [lastPtr_concat, if_pos rfl, List.append_nil]
  · rw [List.concat_eq_append] at *
    rw [← List.cons_append, ← append_assoc, ← append_assoc, lastPtr_concat, lastPtr_concat,
      if_neg]
    intro he
    exact hnot (by simp [he])

/-- **A node is unlinked**, wherever it is. -/
theorem ListRep.unlink (h : ListRep s (es1 ++ e :: es2)) (hnode : NodeAt s.nodes e.1 e.2 q) :
    ∃ s', s.unlinkNode ⟨listnodeType, e.2, q⟩ e.1 (lastPtr es1) = .ok s' ∧
      ListRep s' (es1 ++ es2) := by
  obtain ⟨hnot, hnodup⟩ : e.1 ∉ (es1 ++ es2).map Prod.fst ∧ ((es1 ++ es2).map Prod.fst).Nodup := by
    have hnd := h.nodup
    rwa [map_append, map_cons, List.nodup_middle, ← map_append, List.nodup_cons] at hnd
  obtain ⟨s1, hrelink, hcells, hdata, htail, hsize⟩ := relink_eq h.cells hnodup hnode
  rw [ListMem.unlinkNode, hrelink, ok_bind]
  refine ⟨_, rfl, hdata.trans h.datatype, segment_update hcells hnot, hnodup, ?_, ?_⟩
  · have hnot2 : e.1 ∉ es2.map Prod.fst := fun hin => hnot (by
      rw [map_append]
      exact List.mem_append_right _ hin)
    rw [← lastPtr_remove hnot2, ← h.tail, ← htail]
    rfl
  · have hlt := h.length_lt
    rw [length_append, length_cons] at hlt
    change Word.sub s1.size 1 = _
    rw [hsize, h.size, length_append, length_append, length_cons,
      Word.sub_eq (by omega) hlt]
    omega

end

theorem removeLoop_eq {rest : List (Nat × α)} : ∀ {done : List (Nat × α)} {p fuel : Nat},
    ListRep s (done ++ rest) → Segment (NodeAt s.nodes) p rest 0 → rest.length < fuel →
      ∃ s', s.removeLoop query comparator fuel p (lastPtr done) =
          .ok ((rest.find? (Matches query comparator)).map Prod.snd, s') ∧
        ListRep s' (done ++ rest.eraseP (Matches query comparator)) := by
  induction rest with
  | nil =>
    intro done p fuel h hp hf
    obtain ⟨fuel, rfl⟩ := Nat.exists_eq_add_of_lt hf
    exact ⟨s, if_pos (segment_nil.1 hp), h⟩
  | cons e rest ih =>
    intro done p fuel h hp hf
    obtain ⟨fuel, rfl⟩ := Nat.exists_eq_add_of_lt hf
    obtain ⟨rfl, q, hnode, hrest⟩ := segment_cons.1 hp
    rw [ListMem.removeLoop, if_neg hnode.1.1, hnode.assertListnode_eq, ok_bind]
    by_cases hm : comparator e.2 query = 0
    · have hm' : Matches query comparator e = true := by simpa [Matches] using hm
      obtain ⟨s', hunlink, hrep⟩ := h.unlink hnode
      rw [if_pos hm, hunlink, ok_bind, List.find?_cons_of_pos hm', List.eraseP_cons_of_pos hm']
      exact ⟨s', rfl, hrep⟩
    · have hm' : ¬ Matches query comparator e = true := by simpa [Matches] using hm
      rw [if_neg hm, List.find?_cons_of_neg hm', List.eraseP_cons_of_neg hm',
        ← lastPtr_concat done e, List.append_cons done e (rest.eraseP _)]
      exact ih (by rwa [← List.append_cons]) hrest (Nat.lt_of_succ_lt_succ hf)

theorem ListRep.remove (h : ListRep s es) : ∃ s', s.listRemove query comparator =
        .ok ((es.find? (Matches query comparator)).map Prod.snd, s') ∧
      ListRep s' (es.eraseP (Matches query comparator)) := by
  obtain ⟨s', hloop, hrep⟩ :=
    removeLoop_eq query comparator (show ListRep s ([] ++ es) from h) h.cells h.length_lt
  rw [lastPtr_nil] at hloop
  rw [List.nil_append] at hrep
  rw [ListMem.listRemove, h.assertList_eq, ok_bind]
  -- `loopFuel` is kept folded
  change ∃ s'', (s.removeLoop query comparator (2 ^ 32) s.head 0 >>= _) = _ ∧ _
  rw [hloop, ok_bind]
  refine ⟨_, rfl, hrep.datatype, hrep.cells, hrep.nodup, ?_, hrep.size⟩
  by_cases hzero : s'.size = 0
  · rw [if_pos hzero, hrep.size_eq_zero.1 hzero, lastPtr_nil]
  · rw [if_neg hzero, hrep.tail]

/-! ### `list_assertvalid` -/

theorem validLoop_eq {fuel count prev : Nat} (h : Segment (NodeAt s.nodes) p es 0)
    (hf : es.length < fuel) (hc : count + es.length < 2 ^ 32) : s.validLoop fuel p count prev =
      .ok (count + es.length, (es.getLast?.map Prod.fst).getD prev) := by
  induction es generalizing p fuel count prev with
  | nil =>
    obtain ⟨fuel, rfl⟩ := Nat.exists_eq_add_of_lt hf
    rw [ListMem.validLoop, if_pos (segment_nil.1 h)]
    rfl
  | cons e es ih =>
    obtain ⟨fuel, rfl⟩ := Nat.exists_eq_succ_of_ne_zero (Nat.ne_zero_of_lt hf)
    obtain ⟨rfl, q, hnode, hrest⟩ := segment_cons.1 h
    rw [length_cons] at hf hc
    rw [ListMem.validLoop, if_neg hnode.1.1, hnode.assertListnode_eq, ok_bind,
      Word.add_eq, ih hrest (by omega) (by omega), List.getLast?_cons, length_cons,
      Nat.add_assoc, Nat.add_comm 1]
    cases es.getLast? <;> rfl

theorem ListRep.valid (h : ListRep s es) : s.listAssertvalid = .ok () := by
  have hloop : s.validLoop loopFuel s.head 0 0 = .ok (0 + es.length, lastPtr es) :=
    validLoop_eq h.cells h.length_lt (by rw [Nat.zero_add]; exact h.length_lt)
  rw [ListMem.listAssertvalid, h.assertList_eq, ok_bind, hloop, ok_bind, h.tail, h.size,
    Nat.zero_add]
  cases es with
  | nil => rfl
  | cons e es =>
    dsimp only
    rw [if_neg (by simp), beq_self_eq_true, assert_true, ok_bind, beq_self_eq_true, assert_true]

end

end JinxOS
