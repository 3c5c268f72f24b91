import JinxOS.Klib.Heap
import JinxOS.Lib.Runs
import Mathlib.Data.Multiset.AddSub

/-!
# The heap is a priority queue

A run is any sequence of calls of `heap_push` and `heap_pop` on a heap from `heap_create` in which
`kmalloc` succeeds, that is, in which each `heap_push` returns 0.  A heap holds what has been pushed
and not been popped, and what comes first is not preceded by any element.  So the loop that empties
a heap sees the elements in order (`heapDrain`).
-/

namespace JinxOS

open BinaryHeap

/-! ## Calls -/

/-- A call that has returned. -/
inductive HeapEvent (α : Type)
  /-- `heap_push(h, x)`. -/
  | push (x : α)
  /-- `heap_pop(h)`, with what it returns. -/
  | pop (res : Option α)

section
variable {α : Type}

/-- What a call makes of a heap. -/
def HeapStep [Inhabited α] (h : PrioHeap α) : HeapEvent α → PrioHeap α → Prop
  | .push x, h' => heapPush h x = .ok (0, some h')
  | .pop res, h' => heapPop h = .ok (res, h')

/-- A run of calls. -/
def HeapRun [Inhabited α] (cmp : α → α → Int) (tr : List (PrioHeap α × HeapEvent α))
    (h : PrioHeap α) :
    Prop :=
  Run (· = heapCreate cmp) HeapStep tr h

/-- What is pushed in a run. -/
def pushed : List (PrioHeap α × HeapEvent α) → Multiset α
  | [] => 0
  | (_, .push x) :: tr => x ::ₘ pushed tr
  | (_, .pop _) :: tr => pushed tr

/-- What is popped in a run. -/
def popped : List (PrioHeap α × HeapEvent α) → Multiset α
  | [] => 0
  | (_, .push _) :: tr => popped tr
  | (_, .pop none) :: tr => popped tr
  | (_, .pop (some x)) :: tr => x ::ₘ popped tr

/-- `while (!heap_isempty(h)) heap_pop(h)`: what is popped, in this order. -/
def heapDrain : Nat → PrioHeap α → Except Fault (List α × PrioHeap α)
  | 0, _ => .error .diverges
  | fuel + 1, h => do
    let empty ← heapIsempty h
    if empty then .ok ([], h)
    else do
      let (res, h) ← heapPop h
      let (out, h) ← heapDrain fuel h
      .ok (res.toList ++ out, h)

end

/-! ## What the calls keep -/

section
variable {α : Type} {cmp : α → α → Int} {h h' : PrioHeap α}

/-- A heap that is well formed, and in order. -/
structure HeapInv (cmp : α → α → Int) (h : PrioHeap α) : Prop where
  wf : h.Wf cmp
  ordered : Ordered (Precedes cmp) h.elems

theorem heapCreate_inv : HeapInv cmp (heapCreate cmp) :=
  ⟨⟨rfl, rfl, arrayCreate_wf⟩, fun _ _ _ _ hx => nomatch hx⟩

theorem HeapInv.num (hi : HeapInv cmp h) : h.vals.num = h.elems.length := hi.wf.length.symm

theorem heapIsempty_ok (hi : HeapInv cmp h) : heapIsempty h = .ok h.elems.isEmpty := by
  rw [heapIsempty, hi.wf.assertHeap, ok_bind, arrayNum, hi.num]
  cases h.elems <;> rfl

theorem heapTop_ok (hi : HeapInv cmp h) {x : α} (hx : h.elems[0]? = some x) :
    heapTop h = .ok x := by
  rw [heapTop, hi.wf.assertHeap, ok_bind, arrayGet_ok hx]

theorem first_of_ne_nil (he : h.elems ≠ []) : ∃ x, h.elems[0]? = some x :=
  ⟨_, List.getElem?_eq_getElem (List.length_pos_iff.2 he)⟩

/-- When `kmalloc` fails, so does the assertion that a destroyed array is empty. -/
theorem heapPush_full [Inhabited α] (hi : HeapInv cmp h) (hfull : h.vals.num = 2 ^ 29) (x : α) :
    heapPush h x = .error (.assertFailed "a->num == 0") := by
  rcases arrayAdd_cases hi.wf.vals x with ⟨hlt, -⟩ | ⟨-, hadd⟩
  · omega
  · rw [heapPush, hi.wf.assertHeap, ok_bind, hadd, ok_bind]
    dsimp only
    rw [if_pos rfl, arrayDestroy, arrayCleanup, hfull]
    rfl

variable [IsStrictWeakOrder α (Precedes cmp)]

theorem HeapInv.push [Inhabited α] (hi : HeapInv cmp h) {x : α}
    (hrun : heapPush h x = .ok (0, some h')) :
    HeapInv cmp h' ∧ h'.elems.Perm (x :: h.elems) := by
  have hle : h.vals.num ≤ 2 ^ 29 := hi.wf.vals.num_le.trans hi.wf.vals.le
  rcases Nat.lt_or_eq_of_le hle with hlt | hfull
  · obtain ⟨h1, hpush, hw, ho, hperm⟩ := heapPush_ok hi.wf hi.ordered x hlt
    obtain rfl : h1 = h' := by
      rw [hpush] at hrun
      injection hrun with hrun
      injection hrun with _ hrun
      exact Option.some.inj hrun
    exact ⟨⟨hw, ho⟩, hperm⟩
  · rw [heapPush_full hi hfull] at hrun
    exact nomatch hrun

theorem HeapInv.pop (hi : HeapInv cmp h) {res : Option α} (hrun : heapPop h = .ok (res, h')) :
    HeapInv cmp h' ∧ h.elems.Perm (res.toList ++ h'.elems) := by
  by_cases he : h.elems = []
  · rw [heapPop_empty hi.wf he] at hrun
    cases hrun
    exact ⟨hi, .refl _⟩
  · obtain ⟨x, hx⟩ := first_of_ne_nil he
    obtain ⟨h1, hpop, hw, ho, hperm⟩ := heapPop_ok hi.wf hi.ordered hx
    rw [hpop] at hrun
    cases hrun
    exact ⟨⟨hw, ho⟩, hperm⟩

theorem HeapInv.first (hi : HeapInv cmp h) {x : α} (hx : h.elems[0]? = some x) :
    ∀ y ∈ h.elems, ¬ Precedes cmp y x := by
  intro y hy
  obtain ⟨k, hk⟩ := List.mem_iff_getElem?.1 hy
  exact hi.ordered.not_lt_head hx k hk

/-- **A heap is emptied in order.** -/
theorem HeapInv.drain (fuel : Nat) : ∀ {h : PrioHeap α}, HeapInv cmp h → h.elems.length < fuel →
    ∃ out h', heapDrain fuel h = .ok (out, h') ∧ h'.elems = [] ∧ out.Perm h.elems ∧
      out.Pairwise fun x y => ¬ Precedes cmp y x := by
  induction fuel with
  | zero => exact fun _ hlt => absurd hlt (Nat.not_lt_zero _)
  | succ fuel ih =>
    intro h hi hlen
    rw [heapDrain, heapIsempty_ok hi, ok_bind]
    by_cases he : h.elems = []
    · rw [he, List.isEmpty_nil, if_pos rfl]
      exact ⟨[], h, rfl, he, .refl _, .nil⟩
    · obtain ⟨x, hx⟩ := first_of_ne_nil he
      obtain ⟨h1, hpop, hw, ho, hperm⟩ := heapPop_ok hi.wf hi.ordered hx
      have hlen1 : h1.elems.length < fuel := by
        have := hperm.length_eq
        rw [List.length_cons] at this
        omega
      obtain ⟨out, h', hdrain, hempty, hout, hsorted⟩ := ih ⟨hw, ho⟩ hlen1
      rw [List.isEmpty_eq_false_iff.2 he, if_neg Bool.false_ne_true, hpop, ok_bind]
      dsimp only
      rw [hdrain, ok_bind]
      refine ⟨x :: out, h', rfl, hempty, (hout.cons x).trans hperm.symm,
        .cons (fun y hy => ?_) hsorted⟩
      exact hi.first hx y (hperm.mem_iff.2 (List.mem_cons_of_mem x (hout.mem_iff.1 hy)))

theorem HeapRun.inv [Inhabited α] {tr : List (PrioHeap α × HeapEvent α)} (hrun : HeapRun cmp tr h) :
    HeapInv cmp h ∧ pushed tr = popped tr + h.elems := by
  induction hrun with
  | init hinit =>
    subst hinit
    exact ⟨heapCreate_inv, rfl⟩
  | @step tr s s' a _ hstep ih =>
    obtain ⟨hi, heq⟩ := ih
    match a with
    | .push x =>
      obtain ⟨hi', hperm⟩ := hi.push hstep
      refine ⟨hi', ?_⟩
      rw [pushed, popped, heq, Multiset.coe_eq_coe.2 hperm, ← Multiset.cons_coe, Multiset.add_cons]
    | .pop none =>
      obtain ⟨hi', hperm⟩ := hi.pop hstep
      refine ⟨hi', ?_⟩
      rw [pushed, popped, heq, Multiset.coe_eq_coe.2 hperm]
      rfl
    | .pop (some x) =>
      obtain ⟨hi', hperm⟩ := hi.pop hstep
      refine ⟨hi', ?_⟩
      rw [pushed, popped, heq, Multiset.coe_eq_coe.2 hperm, Multiset.cons_add, ← Multiset.add_cons]
      rfl

end

/-! ## All runs -/

/-- What is known of a heap after a run. -/
structure HeapSpec {α : Type} [Inhabited α] (cmp : α → α → Int)
    (tr : List (PrioHeap α × HeapEvent α))
    (h : PrioHeap α) : Prop where
  /-- No child precedes its parent. -/
  ordered : ∀ i c, c = 2 * i + 1 ∨ c = 2 * i + 2 → ∀ x y, h.elems[i]? = some x →
  h.elems[c]? = some y →
    ¬ Precedes cmp y x
  /-- The elements are those pushed without those popped. -/
  contents : pushed tr = popped tr + h.elems
  /-- `heap_getsize` returns their number. -/
  size : heapGetsize h = .ok h.elems.length
  /-- `heap_top` and `heap_pop` yield the same element, which no element precedes. -/
  first : h.elems ≠ [] → ∃ x ∈ h.elems, heapTop h = .ok x ∧ (∃ h', heapPop h = .ok (some x, h')) ∧
    ∀ y ∈ h.elems, ¬ Precedes cmp y x
  /-- `heap_pop` of an empty heap returns the null pointer. -/
  empty : h.elems = [] → heapPop h = .ok (none, h)
  /-- `heap_push` returns 0: `kmalloc` succeeds up to this number of elements. -/
  push : ∀ x, h.elems.length < 2 ^ 29 → ∃ h', heapPush h x = .ok (0, some h')
  /-- A heap can be emptied, and yields its elements in order. -/
  drain : ∃ out h', heapDrain loopFuel h = .ok (out, h') ∧ h'.elems = [] ∧ out.Perm h.elems ∧
    out.Pairwise fun x y => ¬ Precedes cmp y x

/-- **The heap is a priority queue.** -/
theorem heapRun_queue {α : Type} [Inhabited α] {cmp : α → α → Int}
    [IsStrictWeakOrder α (Precedes cmp)]
    {tr : List (PrioHeap α × HeapEvent α)} {h : PrioHeap α} (hrun : HeapRun cmp tr h) :
    HeapSpec cmp tr h := by
  obtain ⟨hi, hcontents⟩ := hrun.inv
  have hlen : h.elems.length < loopFuel := by
    have := hi.wf.vals.num_lt
    have := hi.num
    change _ < 2 ^ 32
    omega
  refine ⟨fun i c hc x y hx hy => ?_, hcontents, ?_, fun he => ?_, heapPop_empty hi.wf,
    fun x hlt => ?_, hi.drain loopFuel hlen⟩
  · have hpos : 0 < c := by omega
    exact hi.ordered c hpos x y ((parent_eq_iff hpos).2 hc ▸ hx) hy
  · rw [heapGetsize, hi.wf.assertHeap, ok_bind, arrayNum, hi.num]
  · obtain ⟨x, hx⟩ := first_of_ne_nil he
    obtain ⟨h', hpop, -⟩ := heapPop_ok hi.wf hi.ordered hx
    exact ⟨x, List.mem_iff_getElem?.2 ⟨0, hx⟩, heapTop_ok hi hx, ⟨h', hpop⟩, hi.first hx⟩
  · obtain ⟨h', hpush, -⟩ := heapPush_ok hi.wf hi.ordered x (hi.num ▸ hlt)
    exact ⟨h', hpush⟩

/-- `int_lessthan` of the test. -/
def intLessthan (l r : Int) : Int := if l < r then 1 else 0

theorem precedes_intLessthan {l r : Int} : Precedes intLessthan l r ↔ l < r := by
  rw [Precedes, intLessthan]
  split <;> simp [*]

instance : IsStrictWeakOrder Int (Precedes intLessthan) where
  irrefl x h := Int.lt_irrefl x (precedes_intLessthan.1 h)
  trans _ _ _ hab hbc := precedes_intLessthan.2 (Int.lt_trans (precedes_intLessthan.1 hab)
    (precedes_intLessthan.1 hbc))
  incomp_trans a b c hab hbc := by
    simp only [precedes_intLessthan] at *
    omega

/-- The greater of two numbers is pushed first. -/
theorem heapRun_queue_two : ∃ tr h, HeapRun intLessthan tr h ∧ pushed tr = {2, 3} ∧
    heapTop h = .ok 2 := by
  have h₀ : HeapRun intLessthan [] (heapCreate intLessthan) := .init rfl
  obtain ⟨h₁, hpush₁⟩ := (heapRun_queue h₀).push 3 (show 0 < 2 ^ 29 by decide)
  have hrun₁ := Run.step (a := HeapEvent.push (3 : Int)) h₀ hpush₁
  have hone : (h₁.elems : Multiset Int) = {3} := by
    rw [← Multiset.zero_add (h₁.elems : Multiset Int)]
    exact (heapRun_queue hrun₁).contents.symm
  have hlen : h₁.elems.length = 1 := by
    rw [← Multiset.coe_card, hone, Multiset.card_singleton]
  obtain ⟨h₂, hpush₂⟩ := (heapRun_queue hrun₁).push 2 (by omega)
  have hrun₂ := Run.step (a := HeapEvent.push (2 : Int)) hrun₁ hpush₂
  have htwo : (h₂.elems : Multiset Int) = {2, 3} := by
    rw [← Multiset.zero_add (h₂.elems : Multiset Int)]
    exact (heapRun_queue hrun₂).contents.symm
  have hmem : ∀ x, x ∈ h₂.elems ↔ x = 2 ∨ x = 3 := by
    intro x
    rw [← Multiset.mem_coe, htwo]
    simp
  obtain ⟨x, hx, htop, -, hleast⟩ := (heapRun_queue hrun₂).first
    (List.ne_nil_of_mem ((hmem 2).2 (.inl rfl)))
  obtain rfl : x = 2 := by
    have := hleast 2 ((hmem 2).2 (.inl rfl))
    rw [precedes_intLessthan] at this
    have := (hmem x).1 hx
    omega
  exact ⟨_, h₂, hrun₂, rfl, htop⟩

end JinxOS
