import JinxOS.Thread.Thread

/-!
# Accounting for threads

While a kernel function works some threads are on no list: the current one, and those that the
function has just created or taken off a list.  They are its *hand*.  `Accounted` says that the list
nodes represent sequences of threads and that each thread is either in the hand or on exactly one
list, in the state that the list stands for.

Nothing in the code mentions the hand.  It is what makes the invariant local: there is one rule for
each thing that a function can do to a thread, namely write to it (`Accounted.set`), put it on a
list (`Accounted.park`), take it off one (`Accounted.take`), create it (`Accounted.create`) and free
it (`Accounted.free`).
-/

namespace JinxOS

open Function (update update_of_ne)
open List (mem_cons_self mem_cons_of_mem)

variable {T W : Type} [DecidableEq T] [DecidableEq W]

/-- The state of the threads on a list.  The sleepers that `wchan_wakeall` has collected are still
`S_SLEEP`. -/
def ListId.state : ListId W → ThreadState
  | .activeThreads => .ready
  | .zombieThreads => .zombie
  | .wcThreads _ => .sleep
  | .wakeallList => .sleep

/-- The lists are the sequences `ls`, and each thread is either in the hand or on one list, in the
state that the list stands for. -/
structure Accounted (links : Links T (ListId W)) (thread : T → Option Thread)
    (ls : ListId W → List T) (hand : List T) : Prop where
  repr : ListRepr links ls
  nodup : hand.Nodup
  live : ∀ t ∈ hand, (thread t).isSome
  off : ∀ t ∈ hand, ∀ l, t ∉ ls l
  listed : ∀ t, (thread t).isSome → t ∈ hand ∨ ∃ l, t ∈ ls l
  /-- Threads on a list are allocated and in the state of the list. -/
  state : ∀ l, ∀ t ∈ ls l, ∃ th, thread t = some th ∧ th.state = l.state

namespace Accounted

variable {links links' : Links T (ListId W)} {thread : T → Option Thread}
  {ls : ListId W → List T} {hand : List T} {t : T} {th : Thread} {l : ListId W}

omit [DecidableEq W] in
theorem set (h : Accounted links thread ls hand) (ht : t ∈ hand) (th : Thread) :
    Accounted links (update thread t (some th)) ls hand := by
  have hlive : ∀ x, (update thread t (some th) x).isSome ↔ (thread x).isSome := by
    intro x
    by_cases hx : x = t
    · subst hx
      simp [h.live x ht]
    · rw [update_of_ne hx]
  refine ⟨h.repr, h.nodup, fun x hx => (hlive x).2 (h.live x hx), h.off, ?_, ?_⟩
  · exact fun x hx => h.listed x ((hlive x).1 hx)
  · intro l x hx
    have hne : x ≠ t := by
      rintro rfl
      exact h.off x ht l hx
    rw [update_of_ne hne]
    exact h.state l x hx

theorem park (h : Accounted links thread ls (t :: hand)) (hth : thread t = some th)
    (hst : th.state = l.state) (hok : threadlistAddtail links l t = .ok links') :
    Accounted links' thread (update ls l (ls l ++ [t])) hand := by
  have hoff : ∀ l, t ∉ ls l := h.off t mem_cons_self
  obtain ⟨hnot, hnd⟩ := List.nodup_cons.1 h.nodup
  obtain ⟨links1, hok1, hrepr⟩ := threadlistAddtail_spec h.repr hoff l
  obtain rfl : links1 = links' := Except.ok.inj (hok1.symm.trans hok)
  have hmem : ∀ l' x, x ∈ update ls l (ls l ++ [t]) l' ↔
      x ∈ ls l' ∨ x = t ∧ l' = l := by
    intro l' x
    by_cases hl : l' = l
    · subst hl
      simp
    · simp [hl]
  refine ⟨hrepr, hnd, fun x hx => h.live x (mem_cons_of_mem _ hx), ?_, ?_, ?_⟩
  · intro x hx l' hx'
    rcases (hmem l' x).1 hx' with hx' | ⟨rfl, -⟩
    · exact h.off x (mem_cons_of_mem _ hx) l' hx'
    · exact hnot hx
  · intro x hx
    rcases h.listed x hx with hx | ⟨l', hx⟩
    · rcases List.mem_cons.1 hx with rfl | hx
      · exact .inr ⟨l, (hmem l x).2 (.inr ⟨rfl, rfl⟩)⟩
      · exact .inl hx
    · exact .inr ⟨l', (hmem l' x).2 (.inl hx)⟩
  · intro l' x hx
    rcases (hmem l' x).1 hx with hx | ⟨rfl, rfl⟩
    · exact h.state l' x hx
    · exact ⟨th, hth, hst⟩

theorem take (h : Accounted links thread ls hand)
    (hok : threadlistRemhead links l = .ok (some t, links')) :
    ∃ ts, ls l = t :: ts ∧ Accounted links' thread (update ls l ts) (t :: hand) ∧
      ∃ th, thread t = some th ∧ th.state = l.state := by
  cases hl : ls l with
  | nil =>
    have hnil := (threadlistRemhead_nil h.repr hl).symm.trans hok
    exact absurd (Prod.mk.inj (Except.ok.inj hnil)).1 (by simp)
  | cons x ts =>
    obtain ⟨links1, hok1, hrepr⟩ := threadlistRemhead_cons h.repr hl
    obtain ⟨hxt, rfl⟩ := Prod.mk.inj (Except.ok.inj (hok1.symm.trans hok))
    obtain rfl : x = t := Option.some.inj hxt
    have hx : x ∈ ls l := by rw [hl]; exact mem_cons_self
    have hnd := h.repr.nodup l
    rw [hl, List.nodup_cons] at hnd
    have hmem : ∀ l' y, y ∈ ls l' ↔ y ∈ update ls l ts l' ∨ y = x ∧ l' = l := by
      intro l' y
      by_cases hl' : l' = l
      · subst hl'
        simp [hl, or_comm]
      · simp [hl']
    obtain ⟨th, hth, hst⟩ := h.state l x hx
    have hnot : x ∉ hand := fun hin => h.off x hin l hx
    refine ⟨ts, rfl, ⟨hrepr, List.nodup_cons.2 ⟨hnot, h.nodup⟩, ?_, ?_, ?_, ?_⟩, th, hth, hst⟩
    · intro y hy
      rcases List.mem_cons.1 hy with rfl | hy
      · rw [hth]
        rfl
      · exact h.live y hy
    · intro y hy l' hy'
      rcases List.mem_cons.1 hy with rfl | hy
      · by_cases hl' : l' = l
        · subst hl'
          rw [Function.update_self] at hy'
          exact hnd.1 hy'
        · exact hl' (h.repr.disjoint l' l y ((hmem l' y).2 (.inl hy')) hx)
      · exact h.off y hy l' ((hmem l' y).2 (.inl hy'))
    · intro y hy
      rcases h.listed y hy with hy | ⟨l', hy⟩
      · exact .inl (mem_cons_of_mem _ hy)
      · rcases (hmem l' y).1 hy with hy | ⟨rfl, -⟩
        · exact .inr ⟨l', hy⟩
        · exact .inl mem_cons_self
    · exact fun l' y hy => h.state l' y ((hmem l' y).2 (.inl hy))

theorem take_none (h : Accounted links thread ls hand)
    (hok : threadlistRemhead links l = .ok (none, links')) : ls l = [] ∧ links' = links := by
  cases hl : ls l with
  | nil =>
    have hnil := (threadlistRemhead_nil h.repr hl).symm.trans hok
    exact ⟨rfl, (Prod.mk.inj (Except.ok.inj hnil)).2.symm⟩
  | cons x ts =>
    obtain ⟨links1, hok1, -⟩ := threadlistRemhead_cons h.repr hl
    exact absurd (Prod.mk.inj (Except.ok.inj (hok1.symm.trans hok))).1 (by simp)

omit [DecidableEq W] in
theorem free (h : Accounted links thread ls (t :: hand)) :
    Accounted links (update thread t none) ls hand := by
  obtain ⟨hnot, hnd⟩ := List.nodup_cons.1 h.nodup
  refine ⟨h.repr, hnd, ?_, fun x hx => h.off x (mem_cons_of_mem _ hx), ?_, ?_⟩
  · intro x hx
    have hne : x ≠ t := by
      rintro rfl
      exact hnot hx
    rw [update_of_ne hne]
    exact h.live x (mem_cons_of_mem _ hx)
  · intro x hx
    have hne : x ≠ t := by
      rintro rfl
      simp at hx
    rw [update_of_ne hne] at hx
    rcases h.listed x hx with hx | hx
    · exact .inl ((List.mem_cons.1 hx).resolve_left hne)
    · exact .inr hx
  · intro l x hx
    have hne : x ≠ t := by
      rintro rfl
      exact h.off x mem_cons_self l hx
    rw [update_of_ne hne]
    exact h.state l x hx

theorem create (h : Accounted links thread ls hand) (ht : thread t = none) (th : Thread) :
    Accounted (threadlistnodeInit links t) (update thread t (some th)) ls (t :: hand) := by
  have hoff : ∀ l, t ∉ ls l := by
    intro l hl
    obtain ⟨th, hth, -⟩ := h.state l t hl
    simp [ht] at hth
  have hnot : t ∉ hand := by
    intro hin
    simpa [ht] using h.live t hin
  rw [threadlistnodeInit_spec h.repr hoff]
  refine ⟨h.repr, List.nodup_cons.2 ⟨hnot, h.nodup⟩, ?_, ?_, ?_, ?_⟩
  · intro x hx
    rcases List.mem_cons.1 hx with rfl | hx
    · simp
    · have hne : x ≠ t := fun he => hnot (he ▸ hx)
      rw [update_of_ne hne]
      exact h.live x hx
  · intro x hx
    rcases List.mem_cons.1 hx with rfl | hx
    · exact hoff
    · exact h.off x hx
  · intro x hx
    by_cases hxt : x = t
    · exact .inl (hxt ▸ mem_cons_self)
    · rw [update_of_ne hxt] at hx
      exact (h.listed x hx).imp_left (mem_cons_of_mem _)
  · intro l x hx
    have hne : x ≠ t := fun he => hoff l (he ▸ hx)
    rw [update_of_ne hne]
    exact h.state l x hx

end Accounted

end JinxOS
