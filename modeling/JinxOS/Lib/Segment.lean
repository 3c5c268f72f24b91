import Mathlib.Data.List.Nodup
import Mathlib.Tactic.Common

/-!
# Segments of singly linked lists

A memory of cells is given by a relation: `node p v q` says that there is a cell at address `p`,
with payload `v` and a pointer to `q`.  `Segment node p es r` says that following the pointers from
`p` goes through the cells of `es`, each given by its address and payload, and arrives at `r`; a
whole list is a segment that arrives at the null pointer.

Segments are put together and taken apart with `segment_append`, and a change of the memory
elsewhere does not matter to them (`Segment.mono`).  An edit of a list is therefore to split its
segment at the cells that change, to move the parts over, and to join them again.
-/

variable {A β : Type*} {node node' : A → β → A → Prop}

/-- Following the pointers from `p` goes through the cells of `es` and arrives at `r`. -/
def Segment (node : A → β → A → Prop) : A → List (A × β) → A → Prop
  | p, [], r => p = r
  | p, e :: es, r => p = e.1 ∧ ∃ q, node e.1 e.2 q ∧ Segment node q es r

@[simp] theorem segment_nil {p r : A} : Segment node p [] r ↔ p = r := Iff.rfl

theorem segment_cons {p r : A} {e : A × β} {es : List (A × β)} :
    Segment node p (e :: es) r ↔ p = e.1 ∧ ∃ q, node e.1 e.2 q ∧ Segment node q es r := Iff.rfl

theorem segment_append {es1 es2 : List (A × β)} {p r : A} :
    Segment node p (es1 ++ es2) r ↔ ∃ q, Segment node p es1 q ∧ Segment node q es2 r := by
  induction es1 generalizing p with
  | nil => simp
  | cons e es1 ih =>
    constructor
    · rintro ⟨hp, q, hnode, hrest⟩
      obtain ⟨m, hm, hr⟩ := ih.1 hrest
      exact ⟨m, segment_cons.2 ⟨hp, q, hnode, hm⟩, hr⟩
    · rintro ⟨m, hm, hr⟩
      obtain ⟨hp, q, hnode, hm⟩ := segment_cons.1 hm
      exact ⟨hp, q, hnode, ih.2 ⟨m, hm, hr⟩⟩

theorem segment_concat {es : List (A × β)} {e : A × β} {p r : A} :
    Segment node p (es ++ [e]) r ↔ Segment node p es e.1 ∧ node e.1 e.2 r := by
  rw [segment_append]
  constructor
  · rintro ⟨q, hq, hlast⟩
    obtain ⟨rfl, m, hnode, rfl⟩ := segment_cons.1 hlast
    exact ⟨hq, hnode⟩
  · rintro ⟨hq, hnode⟩
    exact ⟨e.1, hq, segment_cons.2 ⟨rfl, r, hnode, rfl⟩⟩

theorem Segment.mono {es : List (A × β)} {p r : A} (h : Segment node p es r)
    (hkeep : ∀ e ∈ es, ∀ q, node e.1 e.2 q → node' e.1 e.2 q) : Segment node' p es r := by
  induction es generalizing p with
  | nil => exact h
  | cons e es ih =>
    obtain ⟨hp, q, hnode, hrest⟩ := segment_cons.1 h
    exact segment_cons.2 ⟨hp, q, hkeep e List.mem_cons_self q hnode,
      ih hrest fun e he => hkeep e (List.mem_cons_of_mem _ he)⟩

theorem Segment.forall_mem {es : List (A × β)} {p r : A} (h : Segment node p es r) :
    ∀ e ∈ es, ∃ q, node e.1 e.2 q := by
  induction es generalizing p with
  | nil => simp
  | cons e es ih =>
    obtain ⟨-, q, hnode, hrest⟩ := segment_cons.1 h
    exact List.forall_mem_cons.2 ⟨⟨q, hnode⟩, ih hrest⟩
