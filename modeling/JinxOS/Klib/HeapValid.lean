import JinxOS.Klib.HeapQueue

/-!
# The check of a heap

`heap_assertvalid` walks through the tree and compares every element with its two children.  It
reads both children of every element, also where there are none: `array_get` then fails its
assertion.  As every tree has a leaf, the only heap that passes is the empty one
(`heapAssertvalid_cases`).

The proof follows the left edge of the tree, whose positions are `2 ^ k - 1`.  Before a position on
it leaves the array, either an assertion on the way has failed or the position is that of a leaf.
-/

namespace JinxOS

open BinaryHeap

section
variable {α : Type}

/-- `assert(comparator(array_get(vals, i), array_get(vals, j)))`, where `exp` is its text. -/
def assertCompare (exp : String) (vals : KArray α) (comparator : α → α → Int) (i j : Nat) :
    Except Fault Unit := do
  let x ← arrayGet vals i
  let y ← arrayGet vals j
  assert exp (decide (comparator x y ≠ 0))

/-- `assert_heap_property`. -/
def assertHeapProperty (vals : KArray α) (max : Nat) (comparator : α → α → Int) :
    Nat → Nat → Except Fault Unit
  | 0, _ => .error .diverges
  | fuel + 1, index =>
    if index < max then do
      assertCompare "comparator(array_get(vals, index), array_get(vals, LEFT(index)))" vals
        comparator index (LEFT index)
      assertCompare "comparator(array_get(vals, index), array_get(vals, RIGHT(index)))" vals
        comparator index (RIGHT index)
      assertHeapProperty vals max comparator fuel (LEFT index)
      assertHeapProperty vals max comparator fuel (RIGHT index)
    else .ok ()

/-- `heap_assertvalid`. -/
def heapAssertvalid (h : PrioHeap α) : Except Fault Unit := do
  assertHeap h
  assertHeapProperty h.vals (arrayNum h.vals) h.comparator loopFuel 0

end

/-! ## The left edge -/

section
variable {α : Type} {cmp : α → α → Int} {h : PrioHeap α} {a : KArray α}

/-- Any elements in the array of a heap, in any order and any number. -/
structure PrioHeap.Holds (cmp : α → α → Int) (h : PrioHeap α) : Prop where
  /-- `ASSERT_HEAP` holds. -/
  datatype : h.datatype = heapType
  /-- The comparator is the one given. -/
  comparator : h.comparator = cmp
  /-- The elements are in the block. -/
  num_le : h.vals.num ≤ h.vals.v.length
  /-- `num` is an `unsigned int`. -/
  num_lt : h.vals.num < 2 ^ 32

/-- No child position holds an element that precedes the one of its parent. -/
def HeapValid (cmp : α → α → Int) (h : PrioHeap α) : Prop :=
  ∀ i c, c = 2 * i + 1 ∨ c = 2 * i + 2 → ∀ x y, h.elems[i]? = some x → h.elems[c]? = some y →
    ¬ Precedes cmp y x

/-- An assertion has failed. -/
def Asserts {β : Type} (x : Except Fault β) : Prop := ∃ exp, x = .error (.assertFailed exp)

theorem Asserts.bind {β γ : Type} {x : Except Fault β} (h : Asserts x) (f : β → Except Fault γ) :
    Asserts (x >>= f) := by
  obtain ⟨exp, rfl⟩ := h
  exact ⟨exp, rfl⟩

theorem arrayGet_beyond {i : Nat} (hi : ¬ i < a.num) : Asserts (arrayGet a i) := by
  rw [arrayGet, decide_eq_false hi]
  exact Asserts.bind ⟨_, rfl⟩ _

theorem arrayGet_within {i : Nat} (hle : a.num ≤ a.v.length) (hi : i < a.num) :
    ∃ x, arrayGet a i = .ok x := by
  refine ⟨a.v[i], ?_⟩
  rw [arrayGet, decide_eq_true hi, assert_true, ok_bind,
    List.getElem?_eq_getElem (lt_of_lt_of_le hi hle), deref_some]

theorem assertCompare_cases {i j : Nat} (hle : a.num ≤ a.v.length) (exp : String) (hi : i < a.num) :
    Asserts (assertCompare exp a cmp i j) ∨ (assertCompare exp a cmp i j = .ok () ∧ j < a.num) := by
  obtain ⟨x, hx⟩ := arrayGet_within hle hi
  rw [assertCompare, hx, ok_bind]
  by_cases hj : j < a.num
  · obtain ⟨y, hy⟩ := arrayGet_within hle hj
    rw [hy, ok_bind]
    cases decide (cmp x y ≠ 0) with
    | false => exact .inl ⟨exp, rfl⟩
    | true => exact .inr ⟨rfl, hj⟩
  · exact .inl ((arrayGet_beyond hj).bind _)

theorem LEFT_pow {k : Nat} (hk : k < 32) : LEFT (2 ^ k - 1) = 2 ^ (k + 1) - 1 := by
  have hpos : 0 < 2 ^ k := Nat.two_pow_pos k
  have hle : 2 ^ k ≤ 2 ^ 31 := Nat.pow_le_pow_right (by decide) (by omega)
  rw [LEFT, Word.mul_eq, Word.add_eq, Nat.pow_succ]
  omega

/-- **The check fails at a position of the left edge**, there or further down. -/
theorem assertHeapProperty_left (hle : a.num ≤ a.v.length) (hlt : a.num < 2 ^ 32) (fuel : Nat) :
    ∀ k, 33 ≤ fuel + k → 2 ^ k - 1 < a.num →
      Asserts (assertHeapProperty a a.num cmp fuel (2 ^ k - 1)) := by
  induction fuel with
  | zero =>
    intro k hk hin
    have : 2 ^ 33 ≤ 2 ^ k := Nat.pow_le_pow_right (by decide) (by omega)
    omega
  | succ fuel ih =>
    intro k hk hin
    have hk32 : k < 32 := by
      by_contra hge
      have : 2 ^ 32 ≤ 2 ^ k := Nat.pow_le_pow_right (by decide) (Nat.not_lt.1 hge)
      omega
    rw [assertHeapProperty, if_pos hin, LEFT_pow hk32]
    rcases assertCompare_cases hle _ hin with hfail | ⟨hok, hleft⟩
    · exact hfail.bind _
    · rw [hok, ok_bind]
      rcases assertCompare_cases hle _ hin with hfail | ⟨hok, -⟩
      · exact hfail.bind _
      · rw [hok, ok_bind]
        exact (ih (k + 1) (by omega) hleft).bind _

/-- **The empty heap is the only one that passes.** -/
theorem heapAssertvalid_cases (hh : h.Holds cmp) :
    (h.vals.num = 0 ∧ heapAssertvalid h = .ok ()) ∨
      (h.vals.num ≠ 0 ∧ Asserts (heapAssertvalid h)) := by
  have hassert : assertHeap h = .ok () := by
    rw [assertHeap, hh.datatype]
    rfl
  rw [heapAssertvalid, hassert, ok_bind, arrayNum]
  by_cases hnum : h.vals.num = 0
  · refine .inl ⟨hnum, ?_⟩
    rw [hnum]
    rfl
  · exact .inr ⟨hnum, assertHeapProperty_left hh.num_le hh.num_lt loopFuel 0 (by decide) (by omega)⟩

theorem PrioHeap.Holds.elems_eq_nil (hh : h.Holds cmp) : h.elems = [] ↔ h.vals.num = 0 := by
  have hle := hh.num_le
  rw [← List.length_eq_zero_iff, PrioHeap.elems, KArray.elems, List.length_take]
  omega

theorem PrioHeap.Wf.holds (hw : h.Wf cmp) : h.Holds cmp :=
  ⟨hw.datatype, hw.comparator, hw.vals.length ▸ hw.vals.num_le, hw.vals.num_lt.trans (by decide)⟩

theorem HeapValid.of_ordered (ho : Ordered (Precedes cmp) h.elems) : HeapValid cmp h := by
  intro i c hc x y hx hy
  have hpos : 0 < c := by omega
  exact ho c hpos x y ((parent_eq_iff hpos).2 hc ▸ hx) hy

end

/-! ## All heaps -/

/-- **The check is right exactly if the heap is empty or out of order.**  Any other heap is rejected
by a failed assertion, also if calls of `heap_push` and `heap_pop` have led to it. -/
theorem heapAssertvalid_right_iff {α : Type} {cmp : α → α → Int} {h : PrioHeap α}
    (hh : h.Holds cmp) :
    ((heapAssertvalid h = .ok () ↔ HeapValid cmp h) ↔ h.elems = [] ∨ ¬ HeapValid cmp h) ∧
    (heapAssertvalid h = .ok () ∨ Asserts (heapAssertvalid h)) ∧
    ∀ [Inhabited α] [IsStrictWeakOrder α (Precedes cmp)] (tr : List (PrioHeap α × HeapEvent α)),
      HeapRun cmp tr h → HeapValid cmp h ∧ (heapAssertvalid h = .ok () ↔ h.elems = []) := by
  have hok : heapAssertvalid h = .ok () ↔ h.elems = [] := by
    rw [hh.elems_eq_nil]
    rcases heapAssertvalid_cases hh with ⟨hnum, hok⟩ | ⟨hnum, exp, hfail⟩
    · exact iff_of_true hok hnum
    · exact iff_of_false (fun hok => by cases hok.symm.trans hfail) hnum
  refine ⟨?_, ?_, fun tr hrun => ⟨.of_ordered hrun.inv.1.ordered, hok⟩⟩
  · rw [hok]
    by_cases hvalid : HeapValid cmp h
    · simp [hvalid]
    · have hne : h.elems ≠ [] := by
        intro hnil
        refine hvalid fun i c _ x y hx _ => ?_
        rw [hnil] at hx
        cases hx
      simp [hvalid, hne]
  · rcases heapAssertvalid_cases hh with ⟨-, hok⟩ | ⟨-, hfail⟩
    · exact .inl hok
    · exact .inr hfail

/-- Two elements in the wrong order are rejected, and rightly so. -/
theorem heapAssertvalid_right_iff_two :
    ¬ HeapValid intLessthan ⟨heapType, intLessthan, ⟨[2, 1], 2, 2⟩⟩ ∧
      heapAssertvalid ⟨heapType, intLessthan, ⟨[2, 1], 2, 2⟩⟩ ≠ .ok () := by
  have hvalid : ¬ HeapValid intLessthan ⟨heapType, intLessthan, ⟨[2, 1], 2, 2⟩⟩ :=
    fun hv => hv 0 1 (.inl rfl) 2 1 rfl rfl (precedes_intLessthan.2 (by decide))
  have hholds : PrioHeap.Holds intLessthan ⟨heapType, intLessthan, ⟨[2, 1], 2, 2⟩⟩ :=
    ⟨rfl, rfl, le_rfl, by decide⟩
  exact ⟨hvalid, fun hok => hvalid (((heapAssertvalid_right_iff hholds).1.2 (.inr hvalid)).1 hok)⟩

/-- **A heap with one element is rejected**, which `heap_push` has put there. -/
theorem not_heapAssertvalid_one : ∃ tr h, HeapRun intLessthan tr h ∧ h.elems = [7] ∧
    HeapValid intLessthan h ∧ Asserts (heapAssertvalid h) := by
  have hempty : HeapInv intLessthan (heapCreate intLessthan) := heapCreate_inv
  obtain ⟨h, hpush, hw, ho, hperm⟩ := heapPush_ok hempty.wf hempty.ordered 7 (by decide)
  have helems : h.elems = [7] := List.perm_singleton.1 hperm
  refine ⟨_, h, .step (a := HeapEvent.push (7 : Int)) (.init rfl) hpush, helems, .of_ordered ho, ?_⟩
  rcases heapAssertvalid_cases hw.holds with ⟨hnum, -⟩ | ⟨-, hfail⟩
  · rw [hw.holds.elems_eq_nil.2 hnum] at helems
    cases helems
  · exact hfail

end JinxOS
