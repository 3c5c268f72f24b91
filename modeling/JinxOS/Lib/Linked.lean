import Mathlib.Data.List.Nodup
import Mathlib.Data.List.Chain

/-!
# Doubly linked chains

A doubly linked list lives in two functions `next prev : α → Option α`, `none` being the null
pointer.  `Linked next prev l` says that consecutive nodes of `l` point at each other; it says
nothing about the outer link of the first and of the last node, so that the same predicate serves
lists between two sentinels and lists that hang off a head pointer and end in null.

Every edit of such a list touches the links of the neighbours only.  The lemmas below therefore
take the *new* link functions as they come, together with what they say at the seam and the fact
that they agree with the old ones elsewhere; a program proof supplies those from its memory.
-/

variable {α : Type*} {next prev next' prev' : α → Option α}

/-- Consecutive nodes of the list point at each other. -/
def Linked (next prev : α → Option α) (l : List α) : Prop :=
  l.IsChain fun x y => next x = some y ∧ prev y = some x

variable {x p n : α} {l l₁ l₂ : List α} {head : Option α}

@[simp] theorem linked_nil : Linked next prev [] := List.isChain_nil

@[simp] theorem linked_singleton (x : α) : Linked next prev [x] := List.isChain_singleton x

theorem linked_cons_cons {y : α} : Linked next prev (x :: y :: l) ↔
      (next x = some y ∧ prev y = some x) ∧ Linked next prev (y :: l) :=
  List.isChain_cons_cons

theorem linked_split : Linked next prev (l₁ ++ x :: l₂) ↔
      Linked next prev (l₁ ++ [x]) ∧ Linked next prev (x :: l₂) :=
  List.isChain_split

theorem Linked.tail (h : Linked next prev (x :: l)) : Linked next prev l :=
  List.IsChain.tail h

/-- A chain reads `next` everywhere but at its last node and `prev` everywhere but at its
first. -/
theorem Linked.congr : ∀ {l : List α}, Linked next prev l →
    (∀ x ∈ l.dropLast, next' x = next x) → (∀ y ∈ l.tail, prev' y = prev y) →
      Linked next' prev' l
  | [], _, _, _ => linked_nil
  | [x], _, _, _ => linked_singleton x
  | x :: y :: l, h, hn, hp => by
    obtain ⟨⟨hxy, hyx⟩, hl⟩ := linked_cons_cons.1 h
    have hx : next' x = next x := hn x (by simp)
    have hy : prev' y = prev y := hp y (by simp)
    refine linked_cons_cons.2 ⟨⟨hx.trans hxy, hy.trans hyx⟩, hl.congr ?_ ?_⟩
    · intro z hz
      exact hn z (by rw [List.dropLast_cons_cons]; exact List.mem_cons_of_mem _ hz)
    · intro z hz
      exact hp z (List.mem_cons_of_mem _ hz)

theorem Linked.agree : ∀ {l : List α}, Linked next prev l → Linked next' prev' l →
    (∀ x ∈ l.dropLast, next' x = next x) ∧ ∀ y ∈ l.tail, prev' y = prev y
  | [], _, _ => by simp
  | [_], _, _ => by simp
  | x :: y :: l, h, h' => by
    obtain ⟨⟨hxy, hyx⟩, hl⟩ := linked_cons_cons.1 h
    obtain ⟨⟨hxy', hyx'⟩, hl'⟩ := linked_cons_cons.1 h'
    obtain ⟨hnext, hprev⟩ := hl.agree hl'
    constructor
    · intro z hz
      rw [List.dropLast_cons_cons, List.mem_cons] at hz
      rcases hz with rfl | hz
      · exact hxy'.trans hxy.symm
      · exact hnext z hz
    · intro z hz
      rw [List.tail_cons, List.mem_cons] at hz
      rcases hz with rfl | hz
      · exact hyx'.trans hyx.symm
      · exact hprev z hz

theorem Linked.away (hleft : Linked next prev (l₁ ++ [p])) (hright : Linked next prev (n :: l₂))
    (hn : ∀ y ∈ l₁ ++ n :: l₂, next' y = next y) (hp : ∀ y ∈ l₁ ++ p :: l₂, prev' y = prev y) :
    Linked next' prev' (l₁ ++ [p]) ∧ Linked next' prev' (n :: l₂) := by
  refine ⟨hleft.congr ?_ ?_, hright.congr ?_ ?_⟩
  · intro y hy
    rw [List.dropLast_concat] at hy
    exact hn y (List.mem_append_left _ hy)
  · intro y hy
    rcases List.mem_append.1 (List.mem_of_mem_tail hy) with hy | hy
    · exact hp y (List.mem_append_left _ hy)
    · exact hp y (List.mem_append_right _ (List.mem_cons.2 (.inl (List.mem_singleton.1 hy))))
  · intro y hy
    exact hn y (List.mem_append_right _ (List.dropLast_subset _ hy))
  · intro y hy
    exact hp y (List.mem_append_right _ (List.mem_cons_of_mem _ hy))

/-- **Unlinking a node** takes the two links across it. -/
theorem Linked.unlink (h : Linked next prev (l₁ ++ p :: x :: n :: l₂)) (hpn : next' p = some n)
    (hnp : prev' n = some p) (hn : ∀ y ∈ l₁ ++ n :: l₂, next' y = next y)
    (hp : ∀ y ∈ l₁ ++ p :: l₂, prev' y = prev y) : Linked next' prev' (l₁ ++ p :: n :: l₂) := by
  obtain ⟨hleft, hright⟩ := linked_split.1 h
  obtain ⟨hleft, hright⟩ := hleft.away hright.tail.tail hn hp
  exact linked_split.2 ⟨hleft, linked_cons_cons.2 ⟨⟨hpn, hnp⟩, hright⟩⟩

/-- **Linking a node in** between two neighbours takes the four links around it. -/
theorem Linked.link (h : Linked next prev (l₁ ++ p :: n :: l₂)) (hpx : next' p = some x)
    (hxp : prev' x = some p) (hxn : next' x = some n) (hnx : prev' n = some x)
    (hn : ∀ y ∈ l₁ ++ n :: l₂, next' y = next y) (hp : ∀ y ∈ l₁ ++ p :: l₂, prev' y = prev y) :
    Linked next' prev' (l₁ ++ p :: x :: n :: l₂) := by
  obtain ⟨hleft, hright⟩ := linked_split.1 h
  obtain ⟨hleft, hright⟩ := hleft.away hright.tail hn hp
  exact linked_split.2 ⟨hleft, linked_cons_cons.2 ⟨⟨hpx, hxp⟩,
    linked_cons_cons.2 ⟨⟨hxn, hnx⟩, hright⟩⟩⟩

/-! ## Lists that end in null

A list hanging off a head pointer: the head points at the first node, and the last node's `next`
is null.  The first node's `prev` is not constrained. -/

/-- Following `next` from the pointer `head` visits exactly the nodes of `l`, in order, and ends
in null; `prev` of every node but the first is its predecessor. -/
structure NullList (next prev : α → Option α) (head : Option α) (l : List α) : Prop where
  head_eq : head = l.head?
  linked : Linked next prev l
  last : ∀ x ∈ l.getLast?, next x = none

theorem nullList_nil : NullList next prev none [] := ⟨rfl, linked_nil, by simp⟩

theorem NullList.next_head (h : NullList next prev head (x :: l)) :
    NullList next prev (next x) l := by
  obtain ⟨-, hlinked, hlast⟩ := h
  cases l with
  | nil => exact ⟨hlast x (by simp), linked_nil, by simp⟩
  | cons y l =>
    obtain ⟨⟨hxy, -⟩, hl⟩ := linked_cons_cons.1 hlinked
    exact ⟨hxy, hl, fun z hz => hlast z (by simpa using hz)⟩

theorem NullList.unique {l' : List α} (h : NullList next prev head l)
    (h' : NullList next prev head l') : l = l' := by
  induction l generalizing head l' with
  | nil =>
    have hhead : l'.head? = none := h'.head_eq.symm.trans h.head_eq
    exact (List.head?_eq_none_iff.1 hhead).symm
  | cons x l ih =>
    obtain ⟨t, rfl⟩ : ∃ t, l' = x :: t :=
      List.head?_eq_some_iff.1 (h'.head_eq.symm.trans h.head_eq)
    rw [ih h.next_head h'.next_head]

theorem NullList.next_eq (h : NullList next prev head (l₁ ++ x :: l₂)) : next x = l₂.head? := by
  obtain ⟨-, hlinked, hlast⟩ := h
  cases l₂ with
  | nil => exact hlast x (by simp)
  | cons y l₂ => exact (linked_cons_cons.1 (linked_split.1 hlinked).2).1.1

/-- The `prev` field of a node that is not the first is its predecessor. -/
theorem NullList.prev_eq (h : NullList next prev head (l₁ ++ p :: x :: l₂)) : prev x = some p :=
  (linked_cons_cons.1 (linked_split.1 h.linked).2).1.2

theorem NullList.congr (h : NullList next prev head l) (hn : ∀ x ∈ l, next' x = next x)
    (hp : ∀ y ∈ l.tail, prev' y = prev y) : NullList next' prev' head l := by
  refine ⟨h.head_eq, h.linked.congr (fun x hx => hn x (List.dropLast_subset _ hx)) hp, ?_⟩
  intro x hx
  rw [hn x (List.mem_of_mem_getLast? hx), h.last x hx]

/-- **Pushing a node** in front of the list. -/
theorem NullList.push (h : NullList next prev head l) (hx : next' x = head)
    (hh : ∀ y ∈ l.head?, prev' y = some x) (hn : ∀ y ∈ l, next' y = next y)
    (hp : ∀ y ∈ l.tail, prev' y = prev y) : NullList next' prev' (some x) (x :: l) := by
  obtain ⟨hhead, hlinked, hlast⟩ := h.congr hn hp
  cases l with
  | nil => exact ⟨rfl, linked_singleton x, by simpa [hx] using hhead⟩
  | cons y l =>
    refine ⟨rfl, linked_cons_cons.2 ⟨⟨hx.trans hhead, hh y rfl⟩, hlinked⟩, ?_⟩
    intro z hz
    exact hlast z (by simpa using hz)

/-- **Removing a node that is not the first** redirects its predecessor to its successor, if it
has one. -/
theorem NullList.remove (h : NullList next prev head (l₁ ++ p :: x :: l₂))
    (hpx : next' p = l₂.head?) (hxp : ∀ y ∈ l₂.head?, prev' y = some p)
    (hn : ∀ y ∈ l₁ ++ l₂, next' y = next y) (hp : ∀ y ∈ l₁ ++ p :: l₂.tail, prev' y = prev y) :
    NullList next' prev' head (l₁ ++ p :: l₂) := by
  obtain ⟨hhead, hlinked, hlast⟩ := h
  have hhead : head = (l₁ ++ p :: l₂).head? := by
    rw [hhead]
    cases l₁ <;> rfl
  cases l₂ with
  | nil =>
    refine ⟨hhead, (linked_split.1 hlinked).1.congr ?_ ?_, ?_⟩
    · intro y hy
      rw [List.dropLast_concat] at hy
      exact hn y (List.mem_append_left _ hy)
    · intro y hy
      exact hp y (List.mem_of_mem_tail hy)
    · intro y hy
      obtain rfl : p = y := by simpa using hy
      exact hpx
  | cons n l₂ =>
    refine ⟨hhead, hlinked.unlink hpx (hxp n rfl) hn hp, ?_⟩
    intro y hy
    have hy' : y ∈ (n :: l₂).getLast? := by simpa using hy
    rw [hn y (List.mem_append_right _ (List.mem_of_mem_getLast? hy'))]
    exact hlast y (by simpa using hy')
