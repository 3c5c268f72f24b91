import JinxOS.Lib.Refinement
import JinxOS.Thread.ThreadList
import Mathlib.Data.Fintype.Defs

/-!
# Thread lists are sequences

Any sequence of calls of the seven functions of `thread/threadlist.c` that change a list, on any
number of lists and threads.  It stands for the same sequence of edits of a family of sequences, one
for each list: `threadlists_refine` says that the calls return what the edits give, and what the
nodes are afterwards.

How a list is read is the loop of `THREADLIST_FORALL`, and of `THREADLIST_FORALL_REV` for the other
direction.  Both are one loop, over `tln_next` from one bookend and over `tln_prev` from the other,
and read the sequence from `Linked`, which is symmetric.
-/

namespace JinxOS

open Refinement
open Function (update update_eq_self update_of_ne)

/-! ## Reading a list -/

section
variable {T L : Type}

/-- The loop of `THREADLIST_FORALL` and `THREADLIST_FORALL_REV`: the threads that are visited from
the node on. -/
def forallFrom (link : Node T L → Option (Node T L)) : Nat → Node T L → Except Fault (List T)
  | 0, _ => .error .diverges
  | fuel + 1, n => do
    let tln ← deref (link n)
    match tln.self with
    | none => .ok []
    | some t => do
      let ts ← forallFrom link fuel (.thread t)
      .ok (t :: ts)

/-- `THREADLIST_FORALL`. -/
def threadlistForall (s : Links T L) (fuel : Nat) (l : L) : Except Fault (List T) :=
  forallFrom s.next fuel (.head l)

/-- `THREADLIST_FORALL_REV`. -/
def threadlistForallRev (s : Links T L) (fuel : Nat) (l : L) : Except Fault (List T) :=
  forallFrom s.prev fuel (.tail l)

theorem forallFrom_linked {link back : Node T L → Option (Node T L)} {e : Node T L}
    (he : e.self = none) : ∀ {fuel : Nat} {n : Node T L} {ts : List T},
    Linked link back (n :: (ts.map .thread ++ [e])) → ts.length < fuel →
      forallFrom link fuel n = .ok ts
  | fuel + 1, n, [], h, _ => by
    have hlink : link n = some e := (linked_cons_cons.1 h).1.1
    rw [forallFrom, hlink, deref_some, ok_bind, he]
  | fuel + 1, n, t :: ts, h, hlt => by
    obtain ⟨⟨hlink, -⟩, hrest⟩ := linked_cons_cons.1 h
    have ih : forallFrom link fuel (.thread t) = .ok ts :=
      forallFrom_linked he hrest (Nat.lt_of_succ_lt_succ hlt)
    rw [forallFrom, hlink, deref_some, ok_bind]
    change (do let ts ← forallFrom link fuel (.thread t); .ok (t :: ts)) = _
    rw [ih, ok_bind]

variable {s : Links T L} {ls : L → List T}

section
variable (h : ListRepr s ls) {l : L} {fuel : Nat} (hf : (ls l).length < fuel)
include h hf

theorem ListRepr.forall_eq : threadlistForall s fuel l = .ok (ls l) :=
  forallFrom_linked rfl (h.linked l) hf

theorem ListRepr.forallRev_eq : threadlistForallRev s fuel l = .ok (ls l).reverse := by
  have hrev : Linked s.prev s.next (nodesOf l (ls l)).reverse := by
    refine List.isChain_reverse.2 ((h.linked l).imp fun _ _ hxy => ⟨hxy.2, hxy.1⟩)
  have hnodes : (nodesOf l (ls l)).reverse =
      .tail l :: ((ls l).reverse.map .thread ++ [.head l]) := by
    simp [nodesOf]
  exact forallFrom_linked rfl (hnodes ▸ hrev) (by rwa [List.length_reverse])

end

end

/-! ## Calls -/

/-- A call. -/
inductive ThreadlistOp (T L : Type)
  /-- `threadlist_addhead(tl, t)`. -/
  | addhead (l : L) (t : T)
  /-- `threadlist_addtail(tl, t)`. -/
  | addtail (l : L) (t : T)
  /-- `threadlist_insertafter(tl, onlist, addee)`. -/
  | insertafter (l : L) (onlist addee : T)
  /-- `threadlist_insertbefore(tl, addee, onlist)`. -/
  | insertbefore (l : L) (addee onlist : T)
  /-- `threadlist_remhead(tl)`. -/
  | remhead (l : L)
  /-- `threadlist_remtail(tl)`. -/
  | remtail (l : L)
  /-- `threadlist_remove(tl, t)`. -/
  | remove (l : L) (t : T)

variable {T L : Type} [DecidableEq T] [DecidableEq L]

/-- The list that a call is for. -/
def ThreadlistOp.list : ThreadlistOp T L → L
  | .addhead l _ => l
  | .addtail l _ => l
  | .insertafter l _ _ => l
  | .insertbefore l _ _ => l
  | .remhead l => l
  | .remtail l => l
  | .remove l _ => l

/-- A call of a function that returns nothing. -/
def voidCall (x : Except Fault (Links T L)) : Except Fault (Option T × Links T L) := do
  let s ← x
  .ok (none, s)

/-- A call: the thread that it returns, and the nodes after it. -/
def threadlistCall (s : Links T L) : ThreadlistOp T L → Except Fault (Option T × Links T L)
  | .addhead l t => voidCall (threadlistAddhead s l t)
  | .addtail l t => voidCall (threadlistAddtail s l t)
  | .insertafter l onlist addee => voidCall (threadlistInsertafter s l onlist addee)
  | .insertbefore l addee onlist => voidCall (threadlistInsertbefore s l addee onlist)
  | .remhead l => threadlistRemhead s l
  | .remtail l => threadlistRemtail s l
  | .remove l t => voidCall (threadlistRemove s l t)

/-! ## Edits of sequences -/

/-- The sequence with `y` behind `x`. -/
def insertAfter (x y : T) (ts : List T) : List T := ts.insertIdx (ts.idxOf x + 1) y

/-- The sequence with `y` in front of `x`. -/
def insertBefore (x y : T) (ts : List T) : List T := ts.insertIdx (ts.idxOf x) y

/-- Only threads on no list are added, and only threads on the list are inserted next to or removed.
-/
def ThreadlistOp.Pre (ls : L → List T) : ThreadlistOp T L → Prop
  | .addhead _ t => ∀ l, t ∉ ls l
  | .addtail _ t => ∀ l, t ∉ ls l
  | .insertafter l onlist addee => onlist ∈ ls l ∧ ∀ l, addee ∉ ls l
  | .insertbefore l addee onlist => onlist ∈ ls l ∧ ∀ l, addee ∉ ls l
  | .remhead _ => True
  | .remtail _ => True
  | .remove l t => t ∈ ls l

instance ThreadlistOp.decidablePre [Fintype L] (ls : L → List T) :
    (op : ThreadlistOp T L) → Decidable (op.Pre ls)
  | .addhead _ t => inferInstanceAs (Decidable (∀ l, t ∉ ls l))
  | .addtail _ t => inferInstanceAs (Decidable (∀ l, t ∉ ls l))
  | .insertafter l onlist addee => inferInstanceAs (Decidable (onlist ∈ ls l ∧ ∀ l, addee ∉ ls l))
  | .insertbefore l addee onlist => inferInstanceAs (Decidable (onlist ∈ ls l ∧ ∀ l, addee ∉ ls l))
  | .remhead _ => inferInstanceAs (Decidable True)
  | .remtail _ => inferInstanceAs (Decidable True)
  | .remove l t => inferInstanceAs (Decidable (t ∈ ls l))

/-- What a call does to the sequences, and what it returns. -/
def ThreadlistOp.next (ls : L → List T) : ThreadlistOp T L → Option T × (L → List T)
  | .addhead l t => (none, update ls l (t :: ls l))
  | .addtail l t => (none, update ls l (ls l ++ [t]))
  | .insertafter l onlist addee => (none, update ls l (insertAfter onlist addee (ls l)))
  | .insertbefore l addee onlist => (none, update ls l (insertBefore onlist addee (ls l)))
  | .remhead l => ((ls l).head?, update ls l (ls l).tail)
  | .remtail l => ((ls l).getLast?, update ls l (ls l).dropLast)
  | .remove l t => (none, update ls l ((ls l).erase t))

section
variable {x y : T} {xs ys : List T}

omit [DecidableEq T] in
theorem insertIdx_length (y : T) (ys : List T) : ∀ xs : List T,
    (xs ++ ys).insertIdx xs.length y = xs ++ y :: ys
  | [] => by simp
  | x :: xs => by simp [insertIdx_length y ys xs]

theorem idxOf_first (hx : x ∉ xs) : (xs ++ x :: ys).idxOf x = xs.length := by
  rw [List.idxOf_append_of_notMem hx, List.idxOf_cons_self, Nat.add_zero]

theorem insertAfter_first (hx : x ∉ xs) : insertAfter x y (xs ++ x :: ys) = xs ++ x :: y :: ys := by
  have hsplit := insertIdx_length y ys (xs ++ [x])
  rw [List.append_assoc, List.append_assoc, List.length_append] at hsplit
  rw [insertAfter, idxOf_first hx]
  exact hsplit

theorem insertBefore_first (hx : x ∉ xs) :
    insertBefore x y (xs ++ x :: ys) = xs ++ y :: x :: ys := by
  rw [insertBefore, idxOf_first hx, insertIdx_length]

theorem erase_first (hx : x ∉ xs) : (xs ++ x :: ys).erase x = xs ++ ys := by
  rw [List.erase_append_right _ hx, List.erase_cons_head]

end

/-! ## Calls are edits -/

section
variable {s : Links T L} {ls : L → List T}

/-- **A call does to the nodes what it does to the sequences**, and returns what it should. -/
theorem ListRepr.call (h : ListRepr s ls) (op : ThreadlistOp T L) (hpre : op.Pre ls) :
    ∃ s', threadlistCall s op = .ok ((op.next ls).1, s') ∧ ListRepr s' (op.next ls).2 := by
  cases op with
  | addhead l t =>
    obtain ⟨s', hok, hrepr⟩ := threadlistAddhead_spec h hpre l
    exact ⟨s', by rw [threadlistCall, hok]; rfl, hrepr⟩
  | addtail l t =>
    obtain ⟨s', hok, hrepr⟩ := threadlistAddtail_spec h hpre l
    exact ⟨s', by rw [threadlistCall, hok]; rfl, hrepr⟩
  | insertafter l onlist addee =>
    obtain ⟨xs, ys, hl, hx⟩ := List.eq_append_cons_of_mem hpre.1
    obtain ⟨s', hok, hrepr⟩ := threadlistInsertafter_spec h hpre.2 hl
    refine ⟨s', by rw [threadlistCall, hok]; rfl, ?_⟩
    rw [ThreadlistOp.next, hl, insertAfter_first hx]
    exact hrepr
  | insertbefore l addee onlist =>
    obtain ⟨xs, ys, hl, hx⟩ := List.eq_append_cons_of_mem hpre.1
    obtain ⟨s', hok, hrepr⟩ := threadlistInsertbefore_spec h hpre.2 hl
    refine ⟨s', by rw [threadlistCall, hok]; rfl, ?_⟩
    rw [ThreadlistOp.next, hl, insertBefore_first hx]
    exact hrepr
  | remhead l =>
    rw [threadlistCall, ThreadlistOp.next]
    cases hl : ls l with
    | nil =>
      refine ⟨s, threadlistRemhead_nil h hl, ?_⟩
      rwa [List.tail_nil, ← hl, update_eq_self]
    | cons t ts => exact threadlistRemhead_cons h hl
  | remtail l =>
    rw [threadlistCall, ThreadlistOp.next]
    rcases List.eq_nil_or_concat (ls l) with hl | ⟨ts, t, hl⟩
    · refine ⟨s, by rw [hl]; exact threadlistRemtail_nil h hl, ?_⟩
      rwa [hl, List.dropLast_nil, ← hl, update_eq_self]
    · rw [List.concat_eq_append] at hl
      obtain ⟨s', hok, hrepr⟩ := threadlistRemtail_concat h hl
      refine ⟨s', by rw [hl, List.getLast?_concat]; exact hok, ?_⟩
      rwa [hl, List.dropLast_concat]
  | remove l t =>
    obtain ⟨xs, ys, hl, hx⟩ := List.eq_append_cons_of_mem hpre
    obtain ⟨s', hok, hrepr⟩ := threadlistRemove_spec h hl
    refine ⟨s', by rw [threadlistCall, hok]; rfl, ?_⟩
    rw [ThreadlistOp.next, hl, erase_first hx]
    exact hrepr

theorem ThreadlistOp.next_of_ne {op : ThreadlistOp T L} {l : L} (hl : l ≠ op.list) :
    (op.next ls).2 l = ls l := by
  cases op with
  | addhead k t | addtail k t | insertafter k onlist addee | insertbefore k addee onlist
  | remhead k | remtail k | remove k t => exact update_of_ne hl _ _

/-- Nothing on the list has changed: not the links of its nodes, and not the count. -/
def Untouched (s s' : Links T L) (l : L) (ts : List T) : Prop :=
  (∀ x ∈ nodesOf l ts, s'.next x = s.next x ∧ s'.prev x = s.prev x) ∧ s'.count l = s.count l

omit [DecidableEq T] [DecidableEq L] in
theorem ListRepr.untouched {s' : Links T L} {ls' : L → List T} (h : ListRepr s ls)
    (h' : ListRepr s' ls') {l : L} (hl : ls' l = ls l) : Untouched s s' l (ls l) := by
  obtain ⟨hnext, hprev⟩ := (h.linked l).agree (hl ▸ h'.linked l)
  refine ⟨fun x hx => ⟨?_, ?_⟩, by rw [h'.count, h.count, hl]⟩
  · rw [nodesOf, ← List.cons_append, List.mem_append, List.mem_singleton] at hx
    rcases hx with hx | rfl
    · exact hnext x (by rwa [nodesOf, ← List.cons_append, List.dropLast_concat])
    · rw [h'.last, h.last]
  · rcases List.mem_cons.1 hx with rfl | hx
    · rw [h'.first, h.first]
    · exact hprev x hx

/-- What the nodes of all lists and threads say. -/
structure ThreadlistSpec (s : Links T L) (ls : L → List T) : Prop where
  /-- The threads of a list from the front. -/
  forward : ∀ l fuel, (ls l).length < fuel → threadlistForall s fuel l = .ok (ls l)
  /-- The threads of a list from the back. -/
  backward : ∀ l fuel, (ls l).length < fuel → threadlistForallRev s fuel l = .ok (ls l).reverse
  /-- `tl_count`. -/
  count : ∀ l, s.count l = (ls l).length
  /-- The links of a thread on no list. -/
  off : ∀ t, (∀ l, t ∉ ls l) → s.prev (.thread t) = none ∧ s.next (.thread t) = none
  /-- The next call returns what it should, and leaves the nodes of the other lists alone. -/
  others : ∀ op : ThreadlistOp T L, op.Pre ls →
    ∃ s', threadlistCall s op = .ok ((op.next ls).1, s') ∧
      ∀ l, l ≠ op.list → Untouched s s' l (ls l)

/-- **Thread lists are sequences.**  Every legal sequence of calls, on any lists and threads,
returns the threads that the edits of the sequences give, and leaves nodes that spell the sequences
in both directions. -/
theorem threadlists_refine (ops : List (ThreadlistOp T L))
    (hlegal : Legal ThreadlistOp.Pre ThreadlistOp.next (fun _ => []) ops) :
    ∃ s', runCalls threadlistCall Links.empty ops =
        .ok ((Refinement.replay ThreadlistOp.next (fun _ : L => ([] : List T)) ops).1, s') ∧
      ThreadlistSpec s' (Refinement.replay ThreadlistOp.next
        (fun _ : L => ([] : List T)) ops).2 := by
  obtain ⟨s', hrun, h⟩ := runCalls_eq (R := ListRepr) (fun _ _ op hr hpre => hr.call op hpre)
    listRepr_empty hlegal
  refine ⟨s', hrun, fun _ _ => h.forall_eq, fun _ _ => h.forallRev_eq, h.count, h.off, ?_⟩
  intro op hpre
  obtain ⟨s'', hcall, h'⟩ := h.call op hpre
  exact ⟨s'', hcall, fun l hl => h.untouched h' (ThreadlistOp.next_of_ne hl)⟩

end

/-- Two lists: a thread is put on one of them in front of another and behind it, and the other list
gets the one that is taken from the end. -/
theorem threadlists_refine_two : ∃ s' : Links Nat Bool,
    runCalls threadlistCall Links.empty [.addtail true 1, .insertafter true 1 2,
      .insertbefore true 3 2, .addhead true 4, .remtail true, .addtail false 2, .remove true 1,
      .remhead true, .remtail false, .remhead false] =
        .ok ([none, none, none, none, some 2, none, none, some 4, some 2, none], s') ∧
    threadlistForall s' 2 true = .ok [3] := by
  obtain ⟨s', hrun, hspec⟩ := threadlists_refine (T := Nat) (L := Bool)
    [.addtail true 1, .insertafter true 1 2, .insertbefore true 3 2, .addhead true 4, .remtail true,
      .addtail false 2, .remove true 1, .remhead true, .remtail false, .remhead false] (by decide)
  exact ⟨s', hrun.trans rfl, hspec.forward true 2 (by decide)⟩

end JinxOS
