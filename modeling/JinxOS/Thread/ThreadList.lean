import JinxOS.Cpu
import JinxOS.Lib.Linked

/-!
# Thread lists

The code of `thread/threadlist.c`: doubly linked lists of threads.  The links of a thread are in the
thread itself, so a thread is on one list at most, and each list has two bookends that are nodes too
and are always on it.  `threadlist_insertafternode` and its relatives assert that a thread they
insert has null links, which is how the kernel notices a thread that is on a list already.

`ListRepr s ls` says that the nodes in `s` represent the sequences `ls`, one for each list.  It is
kept by linking a thread in between two neighbours (`insertNode_spec`) and by taking one out
(`removenode_spec`).  The public functions do one or the other where a sequence `xs ++ ys` is cut in
two (`ListRepr.linkIn`, `ListRepr.takeOut`): at an end of the list, or next to a thread.

A thread is larger than a byte, so there are fewer than `2 ^ 32` of them and `tl_count`, which is a
natural number here, does not wrap around.
-/

namespace JinxOS

open Function (update_self update_of_ne update_eq_self update update_apply)
open List (nodup_middle nodup_cons append_cons append_assoc cons_append append_nil)

/-! ## The code -/

/-- A `struct threadlistnode`: a bookend of a list, or the `listnode` of a thread. -/
inductive Node (T L : Type)
  /-- `tl_head`. -/
  | head (l : L)
  /-- `tl_tail`. -/
  | tail (l : L)
  /-- The node in a thread. -/
  | thread (t : T)
  deriving DecidableEq

/-- `tln_self`, which is null for bookends. -/
def Node.self {T L : Type} : Node T L → Option T
  | .thread t => some t
  | _ => none

/-- The nodes of all threads `T` and lists `L`. -/
structure Links (T L : Type) where
  prev : Node T L → Option (Node T L)
  next : Node T L → Option (Node T L)
  count : L → Nat

variable {T L : Type} [DecidableEq T] [DecidableEq L]

/-- The assignment `n->tln_prev = p`. -/
def Links.setPrev (s : Links T L) (n : Node T L) (p : Option (Node T L)) : Links T L :=
  { s with prev := Function.update s.prev n p }

/-- The assignment `p->tln_next = n`. -/
def Links.setNext (s : Links T L) (p : Node T L) (n : Option (Node T L)) : Links T L :=
  { s with next := Function.update s.next p n }

/-- The assignment `tl->tl_count = c`. -/
def Links.setCount (s : Links T L) (l : L) (c : Nat) : Links T L :=
  { s with count := Function.update s.count l c }

variable {l l' : L} {ts : List T}

section
variable (s : Links T L)
include s

@[simp] theorem Links.next_setNext (p x : Node T L) (n : Option (Node T L)) :
    (s.setNext p n).next x = if x = p then n else s.next x := update_apply _ _ _ _

@[simp] theorem Links.prev_setNext (p x : Node T L) (n : Option (Node T L)) :
    (s.setNext p n).prev x = s.prev x := rfl

@[simp] theorem Links.prev_setPrev (n x : Node T L) (p : Option (Node T L)) :
    (s.setPrev n p).prev x = if x = n then p else s.prev x := update_apply _ _ _ _

@[simp] theorem Links.next_setPrev (n x : Node T L) (p : Option (Node T L)) :
    (s.setPrev n p).next x = s.next x := rfl

@[simp] theorem Links.count_setNext (p : Node T L) (n : Option (Node T L)) :
    (s.setNext p n).count = s.count := rfl

@[simp] theorem Links.count_setPrev (n : Node T L) (p : Option (Node T L)) :
    (s.setPrev n p).count = s.count := rfl

end

omit [DecidableEq T] in
@[simp] theorem Links.count_setCount (s : Links T L) (l l' : L) (c : Nat) :
    (s.setCount l c).count l' = if l' = l then c else s.count l' := update_apply _ _ _ _

omit [DecidableEq T] in
@[simp] theorem Links.next_setCount (s : Links T L) (l : L) (c : Nat) :
    (s.setCount l c).next = s.next := rfl

omit [DecidableEq T] in
@[simp] theorem Links.prev_setCount (s : Links T L) (l : L) (c : Nat) :
    (s.setCount l c).prev = s.prev := rfl

/-- `threadlistnode_init`. -/
def threadlistnodeInit (s : Links T L) (t : T) : Links T L :=
  (s.setNext (.thread t) none).setPrev (.thread t) none

/-- `threadlistnode_cleanup`. -/
def threadlistnodeCleanup (s : Links T L) (t : T) : Except Fault Unit := do
  assert "tln->tln_next == NULL" (s.next (.thread t)).isNone
  assert "tln->tln_prev == NULL" (s.prev (.thread t)).isNone

/-- `threadlist_init`. -/
def threadlistInit (s : Links T L) (l : L) : Links T L :=
  let s := s.setNext (.head l) (some (.tail l))
  let s := s.setPrev (.head l) none
  let s := s.setNext (.tail l) none
  let s := s.setPrev (.tail l) (some (.head l))
  s.setCount l 0

/-- `threadlist_isempty`. -/
def threadlistIsempty (s : Links T L) (l : L) : Bool := s.count l == 0

/-- `threadlist_cleanup`. -/
def threadlistCleanup (s : Links T L) (l : L) : Except Fault Unit := do
  assert "tl->tl_head.tln_next == &tl->tl_tail" (s.next (.head l) == some (.tail l))
  assert "tl->tl_head.tln_prev == NULL" (s.prev (.head l)).isNone
  assert "tl->tl_tail.tln_next == NULL" (s.next (.tail l)).isNone
  assert "tl->tl_tail.tln_prev == &tl->tl_head" (s.prev (.tail l) == some (.head l))
  assert "threadlist_isempty(tl)" (threadlistIsempty s l)

/-- What `threadlist_insertafternode` and `threadlist_insertbeforenode` have in common: the thread
is linked in between the nodes that `p` and `n` point to. -/
def insertNode (s : Links T L) (t : T) (p n : Option (Node T L)) : Except Fault (Links T L) := do
  let addee := Node.thread t
  assert "addee->tln_prev == NULL" (s.prev addee).isNone
  assert "addee->tln_next == NULL" (s.next addee).isNone
  let s := s.setPrev addee p
  let s := s.setNext addee n
  let p ← deref (s.prev addee)
  let s := s.setNext p (some addee)
  let n ← deref (s.next addee)
  .ok (s.setPrev n (some addee))

/-- `threadlist_insertafternode`. -/
def threadlistInsertafternode (s : Links T L) (onlist : Node T L) (t : T) :
    Except Fault (Links T L) :=
  insertNode s t (some onlist) (s.next onlist)

/-- `threadlist_insertbeforenode`. -/
def threadlistInsertbeforenode (s : Links T L) (t : T) (onlist : Node T L) :
    Except Fault (Links T L) :=
  insertNode s t (s.prev onlist) (some onlist)

/-- `threadlist_removenode`. -/
def threadlistRemovenode (s : Links T L) (tln : Node T L) : Except Fault (Links T L) := do
  assert "tln->tln_prev != NULL" (s.prev tln).isSome
  assert "tln->tln_next != NULL" (s.next tln).isSome
  let p ← deref (s.prev tln)
  let s := s.setNext p (s.next tln)
  let n ← deref (s.next tln)
  let s := s.setPrev n (s.prev tln)
  .ok ((s.setPrev tln none).setNext tln none)

/-- `threadlist_addhead`. -/
def threadlistAddhead (s : Links T L) (l : L) (t : T) : Except Fault (Links T L) := do
  let s ← threadlistInsertafternode s (.head l) t
  .ok (s.setCount l (s.count l + 1))

/-- `threadlist_addtail`. -/
def threadlistAddtail (s : Links T L) (l : L) (t : T) : Except Fault (Links T L) := do
  let s ← threadlistInsertbeforenode s t (.tail l)
  .ok (s.setCount l (s.count l + 1))

/-- `threadlist_remhead`: the thread, or null if the list is empty. -/
def threadlistRemhead (s : Links T L) (l : L) : Except Fault (Option T × Links T L) := do
  let tln ← deref (s.next (.head l))
  if (s.next tln).isNone then .ok (none, s)
  else
    let s ← threadlistRemovenode s tln
    assert "tl->tl_count > 0" (0 < s.count l)
    .ok (tln.self, s.setCount l (s.count l - 1))

/-- `threadlist_remtail`: the thread, or null if the list is empty. -/
def threadlistRemtail (s : Links T L) (l : L) : Except Fault (Option T × Links T L) := do
  let tln ← deref (s.prev (.tail l))
  if (s.prev tln).isNone then .ok (none, s)
  else
    let s ← threadlistRemovenode s tln
    assert "tl->tl_count > 0" (0 < s.count l)
    .ok (tln.self, s.setCount l (s.count l - 1))

/-- `threadlist_insertafter`. -/
def threadlistInsertafter (s : Links T L) (l : L) (onlist addee : T) :
    Except Fault (Links T L) := do
  let s ← threadlistInsertafternode s (.thread onlist) addee
  .ok (s.setCount l (s.count l + 1))

/-- `threadlist_insertbefore`. -/
def threadlistInsertbefore (s : Links T L) (l : L) (addee onlist : T) :
    Except Fault (Links T L) := do
  let s ← threadlistInsertbeforenode s addee (.thread onlist)
  .ok (s.setCount l (s.count l + 1))

/-- `threadlist_remove`. -/
def threadlistRemove (s : Links T L) (l : L) (t : T) : Except Fault (Links T L) := do
  let s ← threadlistRemovenode s (.thread t)
  assert "tl->tl_count > 0" (0 < s.count l)
  .ok (s.setCount l (s.count l - 1))

/-! ## Sequences of threads -/

/-- The nodes on a list, from one bookend to the other. -/
def nodesOf (l : L) (ts : List T) : List (Node T L) := .head l :: (ts.map .thread ++ [.tail l])

/-- The nodes represent the sequences `ls`. -/
structure ListRepr (s : Links T L) (ls : L → List T) : Prop where
  /-- Neighbours on a list point at each other. -/
  linked : ∀ l, Linked s.next s.prev (nodesOf l (ls l))
  /-- Nothing comes before a list. -/
  first : ∀ l, s.prev (.head l) = none
  /-- Nothing comes behind a list. -/
  last : ∀ l, s.next (.tail l) = none
  /-- A thread on no list has null links. -/
  off : ∀ t, (∀ l, t ∉ ls l) → s.prev (.thread t) = none ∧ s.next (.thread t) = none
  /-- No thread is on a list twice. -/
  nodup : ∀ l, (ls l).Nodup
  /-- No thread is on two lists. -/
  disjoint : ∀ l l' t, t ∈ ls l → t ∈ ls l' → l = l'
  /-- `tl_count` counts the threads. -/
  count : ∀ l, s.count l = (ls l).length

variable {s s' : Links T L} {ls : L → List T} {t : T} {xs ys : List T} {A B : List (Node T L)}
  {p n : Node T L}

section

omit [DecidableEq T] [DecidableEq L]

@[simp] theorem mem_nodesOf_thread {t : T} : Node.thread t ∈ nodesOf l ts ↔ t ∈ ts := by
  simp [nodesOf]

@[simp] theorem mem_nodesOf_head : Node.head l' ∈ nodesOf l ts ↔ l' = l := by
  simp [nodesOf]

@[simp] theorem mem_nodesOf_tail : Node.tail l' ∈ nodesOf l ts ↔ l' = l := by
  simp [nodesOf]

theorem nodup_nodesOf (h : ts.Nodup) : (nodesOf l ts).Nodup := by
  have hinj : Function.Injective (Node.thread : T → Node T L) := fun _ _ he => Node.thread.inj he
  simp [nodesOf, List.nodup_append, List.nodup_map_iff hinj, h]

theorem ListRepr.node_ne (h : ListRepr s ls) {x y : Node T L}
    (hl : l ≠ l') (hx : x ∈ nodesOf l (ls l)) (hy : y ∈ nodesOf l' (ls l')) : x ≠ y := by
  rintro rfl
  cases x with
  | head k => exact hl ((mem_nodesOf_head.1 hx).symm.trans (mem_nodesOf_head.1 hy))
  | tail k => exact hl ((mem_nodesOf_tail.1 hx).symm.trans (mem_nodesOf_tail.1 hy))
  | thread t => exact hl (h.disjoint l l' t (mem_nodesOf_thread.1 hx) (mem_nodesOf_thread.1 hy))

theorem seam_nodup (h : (A ++ p :: n :: B).Nodup) :
    (∀ y ∈ A ++ n :: B, y ≠ p ∧ y ∈ A ++ p :: n :: B) ∧
      ∀ y ∈ A ++ p :: B, y ≠ n ∧ y ∈ A ++ p :: n :: B := by
  have hp := h
  rw [nodup_middle, nodup_cons] at hp
  rw [append_cons, nodup_middle, append_assoc, nodup_cons] at h
  refine ⟨fun y hy => ⟨fun he => hp.1 (he ▸ hy), ?_⟩, fun y hy => ⟨fun he => h.1 (he ▸ hy), ?_⟩⟩ <;>
  · simp only [List.mem_append, List.mem_cons] at hy ⊢
    tauto

/-- The two nodes at a seam: the first is not the last bookend, the second not the first one. -/
theorem seam_ne (h : nodesOf l ts = A ++ p :: n :: B) :
    (∀ l', p ≠ .tail l') ∧ ∀ l', n ≠ .head l' := by
  have hp : p ∈ (nodesOf l ts).dropLast := by
    rw [h, List.dropLast_append_of_ne_nil (by simp), List.dropLast_cons_cons]
    simp
  have hn : n ∈ (nodesOf l ts).tail := by
    rw [h]
    cases A <;> simp
  rw [nodesOf, ← cons_append, List.dropLast_concat] at hp
  rw [nodesOf, List.tail_cons] at hn
  constructor
  · rintro l' rfl
    simp at hp
  · rintro l' rfl
    simp at hn

/-! ### Where a sequence is cut

The node in front of the cut is the last thread of the first part, or the bookend if there is none,
and likewise behind it. -/

/-- The node behind which the threads that follow `xs` are. -/
def nodeBefore (l : L) (xs : List T) : Node T L := (xs.getLast?.map .thread).getD (.head l)

/-- The node in front of which the threads that precede `ys` are. -/
def nodeAfter (l : L) (ys : List T) : Node T L := (ys.head?.map .thread).getD (.tail l)

/-- The nodes of a sequence that is cut, and of one with a thread at the cut. -/
theorem nodesOf_cut (l : L) (xs ys : List T) :
    ∃ A B, nodesOf l (xs ++ ys) = A ++ nodeBefore l xs :: nodeAfter l ys :: B ∧
      ∀ t, nodesOf l (xs ++ t :: ys) =
        A ++ nodeBefore l xs :: .thread t :: nodeAfter l ys :: B := by
  obtain ⟨A, hA⟩ : ∃ A, (.head l :: xs.map .thread : List (Node T L)) = A ++ [nodeBefore l xs] := by
    rcases List.eq_nil_or_concat xs with rfl | ⟨xs, x, rfl⟩
    · exact ⟨[], rfl⟩
    · exact ⟨.head l :: xs.map .thread, by simp [nodeBefore]⟩
  obtain ⟨B, hB⟩ : ∃ B, (ys.map .thread ++ [.tail l] : List (Node T L)) = nodeAfter l ys :: B := by
    cases ys with
    | nil => exact ⟨[], rfl⟩
    | cons y ys => exact ⟨ys.map .thread ++ [.tail l], rfl⟩
  refine ⟨A, B, ?_, fun t => ?_⟩
  · rw [nodesOf, List.map_append, append_assoc, hB, ← cons_append, hA, append_assoc]
    rfl
  · rw [nodesOf, List.map_append, append_assoc, List.map_cons, cons_append, hB,
      ← cons_append, hA, append_assoc]
    rfl

theorem ListRepr.cut (h : ListRepr s ls) (hl : ls l = xs ++ ys) :
    s.next (nodeBefore l xs) = some (nodeAfter l ys) ∧
      s.prev (nodeAfter l ys) = some (nodeBefore l xs) := by
  obtain ⟨A, B, hold, -⟩ := nodesOf_cut l xs ys
  have hlinked := h.linked l
  rw [hl, hold] at hlinked
  exact (linked_cons_cons.1 (linked_split.1 hlinked).2).1

end

/-! ## Linking a thread in, and taking one out -/

section
variable {ts' : List T}

section
variable (h : ListRepr s ls)
include h

/-- One list is edited by adding or removing the thread `t`: only links of its own nodes and of `t`
change. -/
theorem ListRepr.edit (t : T) (hlinked : Linked s'.next s'.prev (nodesOf l ts'))
    (hframe : ∀ x, x ∉ nodesOf l (ls l) → x ≠ .thread t → s'.next x = s.next x ∧
      s'.prev x = s.prev x)
    (hfirst : s'.prev (.head l) = none) (hlast : s'.next (.tail l) = none)
    (hmem : ∀ x, x ≠ t → (x ∈ ts' ↔ x ∈ ls l)) (hother : ∀ l', l' ≠ l → t ∉ ls l')
    (hoff : t ∉ ts' → s'.prev (.thread t) = none ∧ s'.next (.thread t) = none) (hnd : ts'.Nodup)
    (hcount : s'.count = s.count) : ListRepr (s'.setCount l ts'.length) (update ls l ts') := by
  have hkept : ∀ l', l' ≠ l → ∀ x ∈ nodesOf l' (ls l'),
      s'.next x = s.next x ∧ s'.prev x = s.prev x := by
    intro l' hl x hx
    refine hframe x (fun hx' => h.node_ne hl hx hx' rfl) ?_
    rintro rfl
    exact hother l' hl (mem_nodesOf_thread.1 hx)
  have hsub : ∀ l' x, x ∈ update ls l ts' l' → x = t ∧ l' = l ∨ x ∈ ls l' := by
    intro l' x hx
    by_cases hl : l' = l
    · subst l'
      rw [update_self] at hx
      by_cases hxt : x = t
      · exact .inl ⟨hxt, rfl⟩
      · exact .inr ((hmem x hxt).1 hx)
    · rw [update_of_ne hl] at hx
      exact .inr hx
  refine ⟨?_, ?_, ?_, ?_, ?_, ?_, ?_⟩
  · intro l'
    by_cases hl : l' = l
    · subst l'
      rw [update_self]
      exact hlinked
    · rw [update_of_ne hl]
      exact (h.linked l').congr (fun x hx => (hkept l' hl x (List.dropLast_subset _ hx)).1)
        fun x hx => (hkept l' hl x (List.mem_of_mem_tail hx)).2
  · intro l'
    by_cases hl : l' = l
    · subst l'
      exact hfirst
    · exact ((hkept l' hl _ (by simp)).2).trans (h.first l')
  · intro l'
    by_cases hl : l' = l
    · subst l'
      exact hlast
    · exact ((hkept l' hl _ (by simp)).1).trans (h.last l')
  · intro x hx
    have hxl : x ∉ ts' := by simpa using hx l
    by_cases hxt : x = t
    · subst x
      exact hoff hxl
    have hx' : ∀ l', x ∉ ls l' := by
      intro l'
      by_cases hl : l' = l
      · rw [hl, ← hmem x hxt]
        exact hxl
      · simpa [update_of_ne hl] using hx l'
    obtain ⟨hnext, hprev⟩ := hframe (.thread x) (fun hm => hx' l (mem_nodesOf_thread.1 hm))
      fun he => hxt (Node.thread.inj he)
    obtain ⟨hxp, hxn⟩ := h.off x hx'
    exact ⟨hprev.trans hxp, hnext.trans hxn⟩
  · intro l'
    by_cases hl : l' = l
    · subst l'
      rwa [update_self]
    · rw [update_of_ne hl]
      exact h.nodup l'
  · intro l1 l2 x h1 h2
    rcases hsub l1 x h1 with ⟨e1, rfl⟩ | h1' <;> rcases hsub l2 x h2 with ⟨e2, rfl⟩ | h2'
    · rfl
    · subst e1
      exact (not_imp_comm.1 (hother l2) (not_not_intro h2')).symm
    · subst e2
      exact not_imp_comm.1 (hother l1) (not_not_intro h1')
    · exact h.disjoint l1 l2 x h1' h2'
  · intro l'
    by_cases hl : l' = l
    · subst l'
      simp
    · rw [Links.count_setCount, if_neg hl, hcount, update_of_ne hl]
      exact h.count l'

/-- **`threadlist_insertafternode` and `threadlist_insertbeforenode`** link a thread in between two
neighbours. -/
theorem insertNode_spec (ht : ∀ l, t ∉ ls l) (hold : nodesOf l (ls l) = A ++ p :: n :: B)
    (hnew : nodesOf l ts' = A ++ p :: .thread t :: n :: B) (hmem : ∀ x, x ∈ ts' ↔ x = t ∨ x ∈ ls l)
    (hnd : ts'.Nodup) : ∃ s', insertNode s t (some p) (some n) = .ok s' ∧
      ListRepr (s'.setCount l ts'.length) (update ls l ts') ∧ s'.count = s.count := by
  obtain ⟨hpt, hnh⟩ := seam_ne hold
  have hsub : ∀ x ∈ A ++ p :: n :: B, x ≠ .thread t := by
    rintro x hx rfl
    rw [← hold] at hx
    exact ht l (mem_nodesOf_thread.1 hx)
  have hp : p ≠ .thread t := hsub p (by simp)
  have hn : n ≠ .thread t := hsub n (by simp)
  have hnodes : (A ++ p :: n :: B).Nodup := hold ▸ nodup_nodesOf (h.nodup l)
  have hlinked : Linked s.next s.prev (A ++ p :: n :: B) := hold ▸ h.linked l
  obtain ⟨hprev, hnext⟩ := h.off t ht
  refine ⟨(((s.setPrev (.thread t) (some p)).setNext (.thread t) (some n)).setNext p
    (some (.thread t))).setPrev n (some (.thread t)), ?_, ?_, rfl⟩
  · rw [insertNode, hprev, hnext]
    simp [ok_bind, hp.symm]
  refine h.edit t (hnew ▸ hlinked.link ?_ ?_ ?_ ?_ ?_ ?_) ?_ ?_ ?_ ?_ ?_ ?_ hnd rfl
  · simp
  · simp [hn.symm]
  · simp [hp.symm]
  · simp
  · intro y hy
    obtain ⟨hyp, hy⟩ := (seam_nodup hnodes).1 y hy
    simp [hyp, hsub y hy]
  · intro y hy
    obtain ⟨hyn, hy⟩ := (seam_nodup hnodes).2 y hy
    simp [hyn, hsub y hy]
  · intro x hx hxt
    have hxp : x ≠ p := by
      rintro rfl
      exact hx (by simp [hold])
    have hxn : x ≠ n := by
      rintro rfl
      exact hx (by simp [hold])
    simp [hxp, hxn, hxt]
  · simp [(hnh l).symm, h.first l]
  · simp [(hpt l).symm, h.last l]
  · intro x hxt
    simp [hmem, hxt]
  · exact fun l' _ => ht l'
  · intro hts
    exact absurd ((hmem t).2 (.inl rfl)) hts

/-- **`threadlist_removenode`** takes a thread out from between its neighbours. -/
theorem removenode_spec (hold : nodesOf l (ls l) = A ++ p :: .thread t :: n :: B)
    (hnew : nodesOf l ts' = A ++ p :: n :: B) (hmem : ∀ x, x ∈ ls l ↔ x = t ∨ x ∈ ts')
    (hnd : ts'.Nodup) : ∃ s', threadlistRemovenode s (.thread t) = .ok s' ∧
      ListRepr (s'.setCount l ts'.length) (update ls l ts') ∧ s'.count = s.count := by
  obtain ⟨hpt, hnh⟩ := seam_ne hnew
  have hnodes : (A ++ p :: .thread t :: n :: B).Nodup := hold ▸ nodup_nodesOf (h.nodup l)
  have hlinked : Linked s.next s.prev (A ++ p :: .thread t :: n :: B) := hold ▸ h.linked l
  obtain ⟨⟨-, hprevt⟩, hrest⟩ := linked_cons_cons.1 (linked_split.1 hlinked).2
  obtain ⟨⟨hnextt, -⟩, -⟩ := linked_cons_cons.1 hrest
  have htout : Node.thread t ∉ A ++ p :: n :: B := by
    rw [append_cons, nodup_middle, ← append_cons] at hnodes
    exact (List.nodup_cons.1 hnodes).1
  have hne : ∀ x ∈ A ++ p :: n :: B, x ≠ .thread t := fun x hx he => htout (he ▸ hx)
  have hnodes' : (A ++ p :: n :: B).Nodup := hnew ▸ nodup_nodesOf hnd
  have hp : p ≠ .thread t := hne p (by simp)
  have hn : n ≠ .thread t := hne n (by simp)
  refine ⟨((s.setNext p (some n)).setPrev n (some p)).setPrev (.thread t) none
    |>.setNext (.thread t) none, ?_, ?_, rfl⟩
  · rw [threadlistRemovenode, hprevt, hnextt]
    simp [ok_bind, hprevt, hnextt]
  refine h.edit t (hnew ▸ hlinked.unlink ?_ ?_ ?_ ?_) ?_ ?_ ?_ ?_ ?_ ?_ hnd rfl
  · simp [hp]
  · simp [hn]
  · intro y hy
    obtain ⟨hyp, hy⟩ := (seam_nodup hnodes').1 y hy
    simp [hyp, hne y hy]
  · intro y hy
    obtain ⟨hyn, hy⟩ := (seam_nodup hnodes').2 y hy
    simp [hyn, hne y hy]
  · intro x hx hxt
    have hxp : x ≠ p := by
      rintro rfl
      exact hx (by simp [hold])
    have hxn : x ≠ n := by
      rintro rfl
      exact hx (by simp [hold])
    simp [hxp, hxn, hxt]
  · simp [(hnh l).symm, h.first l]
  · simp [(hpt l).symm, h.last l]
  · intro x hxt
    simp [hmem, hxt]
  · intro l' hl ht'
    exact hl (h.disjoint l' l t ht' ((hmem t).2 (.inl rfl)))
  · intro _
    simp

/-- **A thread is linked in at a cut**, and counted. -/
theorem ListRepr.linkIn (ht : ∀ l, t ∉ ls l) (hl : ls l = xs ++ ys) : ∃ s', (do
        let s ← insertNode s t (some (nodeBefore l xs)) (some (nodeAfter l ys))
        .ok (s.setCount l (s.count l + 1)) : Except Fault (Links T L)) = .ok s' ∧
      ListRepr s' (update ls l (xs ++ t :: ys)) := by
  obtain ⟨A, B, hold, hnew⟩ := nodesOf_cut l xs ys
  rw [← hl] at hold
  have hnd : (xs ++ t :: ys).Nodup := by
    rw [nodup_middle, ← hl]
    exact List.nodup_cons.2 ⟨ht l, h.nodup l⟩
  obtain ⟨s', hok, hrepr, hcount⟩ :=
    insertNode_spec h ht hold (hnew t) (fun x => by simp [hl, or_left_comm]) hnd
  refine ⟨s'.setCount l (xs ++ t :: ys).length, ?_, hrepr⟩
  rw [hok, ok_bind, hcount, h.count l, hl]
  simp [Nat.add_assoc]

/-- **A thread is taken out from where it cuts the sequence**, and no longer counted. -/
theorem ListRepr.takeOut (hl : ls l = xs ++ t :: ys) : ∃ s', (do
        let s ← threadlistRemovenode s (.thread t)
        assert "tl->tl_count > 0" (0 < s.count l)
        .ok (s.setCount l (s.count l - 1)) : Except Fault (Links T L)) = .ok s' ∧
      ListRepr s' (update ls l (xs ++ ys)) := by
  obtain ⟨A, B, hnew, hold⟩ := nodesOf_cut l xs ys
  have hnd := h.nodup l
  rw [hl, nodup_middle, nodup_cons] at hnd
  obtain ⟨s', hok, hrepr, hcount⟩ := removenode_spec h (hl ▸ hold t) hnew
    (fun x => by simp [hl, or_left_comm]) hnd.2
  refine ⟨s'.setCount l (xs ++ ys).length, ?_, hrepr⟩
  have hlen : s'.count l = (xs ++ ys).length + 1 := by
    rw [hcount, h.count l, hl]
    simp [Nat.add_assoc]
  rw [hok, ok_bind, hlen]
  simp [ok_bind]

/-! ### The public functions -/

/-- **`threadlist_addhead`** puts a thread that is on no list in front. -/
theorem threadlistAddhead_spec (ht : ∀ l, t ∉ ls l) (l : L) :
    ∃ s', threadlistAddhead s l t = .ok s' ∧ ListRepr s' (update ls l (t :: ls l)) := by
  have hl : ls l = [] ++ ls l := rfl
  obtain ⟨hnext, -⟩ := h.cut hl
  obtain ⟨s', hok, hrepr⟩ := h.linkIn ht hl
  refine ⟨s', ?_, hrepr⟩
  rw [threadlistAddhead, threadlistInsertafternode]
  exact hnext.symm ▸ hok

/-- **`threadlist_addtail`** appends a thread that is on no list. -/
theorem threadlistAddtail_spec (ht : ∀ l, t ∉ ls l) (l : L) :
    ∃ s', threadlistAddtail s l t = .ok s' ∧ ListRepr s' (update ls l (ls l ++ [t])) := by
  have hl : ls l = ls l ++ [] := (append_nil _).symm
  obtain ⟨-, hprev⟩ := h.cut hl
  obtain ⟨s', hok, hrepr⟩ := h.linkIn ht hl
  refine ⟨s', ?_, hrepr⟩
  rw [threadlistAddtail, threadlistInsertbeforenode]
  exact hprev.symm ▸ hok

end

section
variable {onlist : T} (h : ListRepr s ls) (ht : ∀ l, t ∉ ls l) (hl : ls l = xs ++ onlist :: ys)
include h ht hl

/-- **`threadlist_insertafter`** puts a thread that is on no list behind one that is on the list. -/
theorem threadlistInsertafter_spec : ∃ s', threadlistInsertafter s l onlist t = .ok s' ∧
      ListRepr s' (update ls l (xs ++ onlist :: t :: ys)) := by
  have hcut : ls l = (xs ++ [onlist]) ++ ys := by rw [hl, append_assoc, List.singleton_append]
  have hbefore : nodeBefore l (xs ++ [onlist]) = .thread onlist := by simp [nodeBefore]
  obtain ⟨hnext, -⟩ := h.cut hcut
  obtain ⟨s', hok, hrepr⟩ := h.linkIn ht hcut
  rw [hbefore] at hnext hok
  rw [append_assoc, List.singleton_append] at hrepr
  refine ⟨s', ?_, hrepr⟩
  rw [threadlistInsertafter, threadlistInsertafternode]
  exact hnext.symm ▸ hok

/-- **`threadlist_insertbefore`** puts a thread that is on no list in front of one that is on the
list. -/
theorem threadlistInsertbefore_spec : ∃ s', threadlistInsertbefore s l t onlist = .ok s' ∧
      ListRepr s' (update ls l (xs ++ t :: onlist :: ys)) := by
  obtain ⟨-, hprev⟩ := h.cut hl
  obtain ⟨s', hok, hrepr⟩ := h.linkIn ht hl
  refine ⟨s', ?_, hrepr⟩
  rw [threadlistInsertbefore, threadlistInsertbeforenode]
  exact hprev.symm ▸ hok

end

section
variable (h : ListRepr s ls)
include h

/-- **`threadlist_remove`** takes out a thread that is on the list. -/
theorem threadlistRemove_spec (hl : ls l = xs ++ t :: ys) :
    ∃ s', threadlistRemove s l t = .ok s' ∧ ListRepr s' (update ls l (xs ++ ys)) :=
  h.takeOut hl

/-- **`threadlist_remhead`** on an empty list. -/
theorem threadlistRemhead_nil (hl : ls l = []) : threadlistRemhead s l = .ok (none, s) := by
  have hnext : s.next (.head l) = some (.tail l) := (h.cut (show ls l = [] ++ [] from hl)).1
  rw [threadlistRemhead, hnext, deref_some, ok_bind, h.last l]
  simp

/-- **`threadlist_remhead`** takes the first thread. -/
theorem threadlistRemhead_cons (hl : ls l = t :: ts) :
    ∃ s', threadlistRemhead s l = .ok (some t, s') ∧ ListRepr s' (update ls l ts) := by
  have hnext : s.next (.head l) = some (.thread t) := (h.cut (show ls l = [] ++ t :: ts from hl)).1
  have hnextt : s.next (.thread t) = some (nodeAfter l ts) :=
    (h.cut (show ls l = [t] ++ ts from hl)).1
  obtain ⟨s', hok, hrepr⟩ := h.takeOut (show ls l = [] ++ t :: ts from hl)
  obtain ⟨s1, hremove, hok⟩ := of_bind hok
  obtain ⟨_, hassert, hok⟩ := of_bind hok
  cases hok
  refine ⟨_, ?_, hrepr⟩
  rw [threadlistRemhead, hnext, deref_some, ok_bind, hnextt, Option.isNone_some,
    if_neg Bool.false_ne_true, hremove, ok_bind, hassert, ok_bind]
  rfl

/-- **`threadlist_remtail`** on an empty list. -/
theorem threadlistRemtail_nil (hl : ls l = []) : threadlistRemtail s l = .ok (none, s) := by
  have hprev : s.prev (.tail l) = some (.head l) := (h.cut (show ls l = [] ++ [] from hl)).2
  rw [threadlistRemtail, hprev, deref_some, ok_bind, h.first l]
  simp

/-- **`threadlist_remtail`** takes the last thread. -/
theorem threadlistRemtail_concat (hl : ls l = ts ++ [t]) :
    ∃ s', threadlistRemtail s l = .ok (some t, s') ∧ ListRepr s' (update ls l ts) := by
  have hprev : s.prev (.tail l) = some (.thread t) := by
    have hcut := (h.cut (show ls l = (ts ++ [t]) ++ [] by rw [hl, append_nil])).2
    rwa [show nodeBefore l (ts ++ [t]) = .thread t by simp [nodeBefore]] at hcut
  have hprevt : s.prev (.thread t) = some (nodeBefore l ts) := (h.cut hl).2
  obtain ⟨s', hok, hrepr⟩ := h.takeOut hl
  rw [append_nil] at hrepr
  obtain ⟨s1, hremove, hok⟩ := of_bind hok
  obtain ⟨_, hassert, hok⟩ := of_bind hok
  cases hok
  refine ⟨_, ?_, hrepr⟩
  rw [threadlistRemtail, hprev, deref_some, ok_bind, hprevt, Option.isNone_some,
    if_neg Bool.false_ne_true, hremove, ok_bind, hassert, ok_bind]
  rfl

end

omit [DecidableEq T] [DecidableEq L] in
theorem threadlistIsempty_iff (h : ListRepr s ls) : threadlistIsempty s l = true ↔ ls l = [] := by
  simp [threadlistIsempty, h.count l, List.length_eq_zero_iff]

/-- `threadlist_init` and `threadlist_cleanup` on a list that is empty. -/
theorem threadlistInit_spec (h : ListRepr s ls) (hl : ls l = []) :
    threadlistInit s l = s ∧ threadlistCleanup s l = .ok () := by
  have hlinked := h.linked l
  rw [hl] at hlinked
  obtain ⟨hnext, hprev⟩ : s.next (.head l) = some (.tail l) ∧ s.prev (.tail l) = some (.head l) :=
    (linked_cons_cons.1 hlinked).1
  have hcount : s.count l = 0 := by rw [h.count l, hl, List.length_nil]
  constructor
  · have hn : update (update s.next (.head l) (some (.tail l))) (.tail l) none
        = s.next := by
      rw [← hnext, update_eq_self, ← h.last l, update_eq_self]
    have hp : update (update s.prev (.head l) none) (.tail l) (some (.head l))
        = s.prev := by
      rw [← h.first l, update_eq_self, ← hprev, update_eq_self]
    have hc : update s.count l 0 = s.count := by
      rw [← hcount, update_eq_self]
    simp only [threadlistInit, Links.setNext, Links.setPrev, Links.setCount, hn, hp, hc]
  · rw [threadlistCleanup, hnext, hprev, h.first l, h.last l, (threadlistIsempty_iff h).2 hl]
    simp [ok_bind]

omit [DecidableEq T] [DecidableEq L] in
theorem threadlistnodeCleanup_spec (h : ListRepr s ls) (ht : ∀ l, t ∉ ls l) :
    threadlistnodeCleanup s t = .ok () := by
  obtain ⟨hprev, hnext⟩ := h.off t ht
  rw [threadlistnodeCleanup, hprev, hnext]
  rfl

theorem threadlistnodeInit_spec (h : ListRepr s ls) (ht : ∀ l, t ∉ ls l) :
    threadlistnodeInit s t = s := by
  obtain ⟨hprev, hnext⟩ := h.off t ht
  have hn : update s.next (.thread t) none = s.next := by
    rw [← hnext, update_eq_self]
  have hp : update s.prev (.thread t) none = s.prev := by
    rw [← hprev, update_eq_self]
  simp only [threadlistnodeInit, Links.setNext, Links.setPrev, hn, hp]

end

/-- All lists empty. -/
def Links.empty : Links T L where
  prev
    | .tail l => some (.head l)
    | _ => none
  next
    | .head l => some (.tail l)
    | _ => none
  count _ := 0

omit [DecidableEq T] [DecidableEq L] in
theorem listRepr_empty : ListRepr (Links.empty : Links T L) fun _ => [] := by
  refine ⟨fun l => linked_cons_cons.2 ⟨⟨rfl, rfl⟩, linked_singleton _⟩, fun _ => rfl, fun _ => rfl,
    fun _ _ => ⟨rfl, rfl⟩, fun _ => List.nodup_nil, by simp, fun _ => rfl⟩

end JinxOS
