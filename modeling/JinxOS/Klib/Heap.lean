import JinxOS.Klib.Array
import JinxOS.Lib.BinaryHeap

/-!
# Heaps

The code of `klib/heap.c`, and what each call makes of a heap.  The comparator is the caller's: a
result other than 0 says that the first argument precedes the second.

`bubble_up` and `trickle_down` are the two repairs of `Lib/BinaryHeap.lean`, on the elements of the
array. Their loops are given fuel, and return within it: an index below `num` goes up to 0, or down
to the end.
-/

namespace JinxOS

open BinaryHeap
open List (length_set getElem?_eq_getElem)

/-- `struct heap`. -/
structure PrioHeap (α : Type) where
  datatype : Nat
  comparator : α → α → Int
  vals : KArray α

/-- `HEAPTYPE`. -/
def heapType : Nat := 3333

section
variable {α : Type}

/-- `ASSERT_HEAP(h)`. -/
def assertHeap (h : PrioHeap α) : Except Fault Unit :=
  assert "h->datatype == HEAPTYPE" (h.datatype == heapType)

/-- `PARENT(i)`; the quotient of −1 is 0. -/
def PARENT (i : Nat) : Nat := (i - 1) / 2

/-- `LEFT(i)`. -/
def LEFT (i : Nat) : Nat := Word.add (Word.mul 2 i) 1

/-- `RIGHT(i)`. -/
def RIGHT (i : Nat) : Nat := Word.add (Word.mul 2 i) 2

/-- `heap_create`. -/
def heapCreate (comparator : α → α → Int) : PrioHeap α := ⟨heapType, comparator, arrayCreate⟩

/-- `h->comparator(array_get(vals, i), array_get(vals, j))`. -/
def compareAt (h : PrioHeap α) (i j : Nat) : Except Fault Bool := do
  let x ← arrayGet h.vals i
  let y ← arrayGet h.vals j
  .ok (decide (h.comparator x y ≠ 0))

/-- The swap in both loops. -/
def arraySwap (vals : KArray α) (i j : Nat) : Except Fault (KArray α) := do
  let t ← arrayGet vals i
  let u ← arrayGet vals j
  let vals ← arraySet vals i u
  arraySet vals j t

/-- The loop of `bubble_up`. -/
def bubbleLoop : Nat → PrioHeap α → Nat → Except Fault (PrioHeap α)
  | 0, _, _ => .error .diverges
  | fuel + 1, h, index => do
    let up ← (if 0 < index then compareAt h index (PARENT index) else .ok false)
    if up then do
      let vals ← arraySwap h.vals index (PARENT index)
      bubbleLoop fuel { h with vals := vals } (PARENT index)
    else .ok h

/-- `bubble_up`. -/
def bubbleUp (h : PrioHeap α) (index : Int) : Except Fault (PrioHeap α) := do
  assert "index >= 0" (decide (0 ≤ index))
  assertHeap h
  bubbleLoop loopFuel h index.toNat

/-- The child that `trickle_down` swaps with, or −1. -/
def pickChild (h : PrioHeap α) (index : Nat) : Except Fault Int := do
  let r := RIGHT index
  let l := LEFT index
  let right ← (if r < h.vals.num then compareAt h r index else .ok false)
  if right then do
    let left ← compareAt h l r
    .ok (wordToInt (if left then l else r))
  else do
    let left ← (if l < h.vals.num then compareAt h l index else .ok false)
    .ok (if left then wordToInt l else -1)

/-- The loop of `trickle_down`. -/
def trickleLoop : Nat → PrioHeap α → Int → Except Fault (PrioHeap α)
  | 0, _, _ => .error .diverges
  | fuel + 1, h, index =>
    if 0 ≤ index then do
      let j ← pickChild h index.toNat
      let vals ← (if 0 ≤ j then arraySwap h.vals j.toNat index.toNat else .ok h.vals)
      trickleLoop fuel { h with vals := vals } j
    else .ok h

/-- `trickle_down`. -/
def trickleDown (h : PrioHeap α) (index : Int) : Except Fault (PrioHeap α) := do
  assert "index >= 0" (decide (0 ≤ index))
  assertHeap h
  trickleLoop loopFuel h index

/-- `heap_push`: the error number, and the heap, unless it is freed. -/
def heapPush [Inhabited α] (h : PrioHeap α) (newval : α) :
    Except Fault (Nat × Option (PrioHeap α)) := do
  assertHeap h
  let (err, newindex, vals) ← arrayAdd h.vals newval
  if err = enomem then do
    arrayDestroy vals
    .ok (enomem, none)
  else do
    assert "newindex == h->vals->num - 1" (newindex == Word.sub vals.num 1)
    let h ← bubbleUp { h with vals := vals } (wordToInt (Word.sub vals.num 1))
    .ok (0, some h)

/-- `heap_pop`; the null pointer of an empty heap is `none`. -/
def heapPop (h : PrioHeap α) : Except Fault (Option α × PrioHeap α) := do
  assertHeap h
  if h.vals.num = 0 then .ok (none, h)
  else do
    let top ← arrayGet h.vals 0
    let last ← arrayGet h.vals (Word.sub h.vals.num 1)
    let vals ← arraySet h.vals 0 last
    let h ← trickleDown { h with vals := { vals with num := Word.sub vals.num 1 } } 0
    .ok (some top, h)

/-- `heap_top`. -/
def heapTop (h : PrioHeap α) : Except Fault α := do
  assertHeap h
  arrayGet h.vals 0

/-- `heap_isempty`. -/
def heapIsempty (h : PrioHeap α) : Except Fault Bool := do
  assertHeap h
  .ok (arrayNum h.vals == 0)

/-- `heap_getsize`. -/
def heapGetsize (h : PrioHeap α) : Except Fault Nat := do
  assertHeap h
  .ok (arrayNum h.vals)

end

/-! ## Heaps in order -/

section
variable {α : Type}

/-- The first argument precedes the second. -/
def Precedes (comparator : α → α → Int) (x y : α) : Prop := comparator x y ≠ 0

/-- A heap of this comparator, on an array that need not be in order. -/
structure PrioHeap.Wf (comparator : α → α → Int) (h : PrioHeap α) : Prop where
  datatype : h.datatype = heapType
  comparator : h.comparator = comparator
  vals : h.vals.Wf

/-- The elements. -/
def PrioHeap.elems (h : PrioHeap α) : List α := h.vals.elems

variable {cmp : α → α → Int} {h : PrioHeap α} {i j : Nat} {x y : α}

theorem PrioHeap.Wf.assertHeap (h' : h.Wf cmp) : assertHeap h = .ok () := by
  rw [JinxOS.assertHeap, h'.datatype]
  rfl

theorem PrioHeap.Wf.length (h' : h.Wf cmp) : h.elems.length = h.vals.num := h'.vals.length_elems

theorem PrioHeap.Wf.with_vals (h' : h.Wf cmp) {vals : KArray α} (hv : vals.Wf) :
    ({ h with vals := vals } : PrioHeap α).Wf cmp := ⟨h'.datatype, h'.comparator, hv⟩

theorem compareAt_ok (h' : h.Wf cmp) (hx : h.elems[i]? = some x) (hy : h.elems[j]? = some y) :
    compareAt h i j = .ok (decide (cmp x y ≠ 0)) := by
  rw [compareAt, arrayGet_ok hx, ok_bind, arrayGet_ok hy, ok_bind, h'.comparator]

theorem arraySwap_ok {a : KArray α} (ha : a.Wf) (hx : a.elems[i]? = some x)
    (hy : a.elems[j]? = some y) :
    ∃ b : KArray α, arraySwap a i j = .ok b ∧ b.Wf ∧ b.elems = (a.elems.set i y).set j x := by
  have hj : j < (a.elems.set i y).length := by
    rw [length_set]
    exact (List.getElem?_eq_some_iff.1 hy).1
  have hset : ({ a with v := a.v.set i y } : KArray α).elems[j]? = some (a.elems.set i y)[j] := by
    rw [KArray.elems_set]
    exact getElem?_eq_getElem hj
  refine ⟨_, ?_, (ha.set i y).set j x, ?_⟩
  · rw [arraySwap, arrayGet_ok hx, ok_bind, arrayGet_ok hy, ok_bind, arraySet_ok hx,
      ok_bind, arraySet_ok hset]
  · rw [KArray.elems_set, KArray.elems_set]

/-- A call has put the elements in order. -/
structure Restored (cmp : α → α → Int) (h h' : PrioHeap α) : Prop where
  wf : h'.Wf cmp
  ordered : Ordered (Precedes cmp) h'.elems
  perm : h'.elems.Perm h.elems

theorem LEFT_eq (h : i < 2 ^ 30) : LEFT i = 2 * i + 1 := by
  rw [LEFT, Word.mul_eq, Word.add_eq]

theorem RIGHT_eq (h : i < 2 ^ 30) : RIGHT i = 2 * i + 2 := by
  rw [RIGHT, Word.mul_eq, Word.add_eq]

/-- A child that is out of place, and that the other one does not precede. -/
structure Picked (cmp : α → α → Int) (l : List α) (i j : Nat) (x y : α) : Prop where
  pos : 0 < j
  parent : parent j = i
  child : l[j]? = some y
  above : l[i]? = some x
  lt : Precedes cmp y x
  least : ∀ k z, 0 < k → BinaryHeap.parent k = i → l[k]? = some z → ¬ Precedes cmp z y

theorem Picked.of_children (hx : h.elems[i]? = some x) (hj : j = 2 * i + 1 ∨ j = 2 * i + 2)
    (hy : h.elems[j]? = some y) (hlt : Precedes cmp y x)
    (hl : ∀ z, h.elems[2 * i + 1]? = some z → ¬ Precedes cmp z y)
    (hr : ∀ z, h.elems[2 * i + 2]? = some z → ¬ Precedes cmp z y) : Picked cmp h.elems i j x y := by
  have hpos : 0 < j := by omega
  refine ⟨hpos, (parent_eq_iff hpos).2 hj, hy, hx, hlt, fun k z hk hki hz => ?_⟩
  rcases (parent_eq_iff hk).1 hki with rfl | rfl
  · exact hl z hz
  · exact hr z hz

theorem childBefore_ok (hw : h.Wf cmp) {c : Nat} (hc : i < c) :
    ∃ b, (if c < h.vals.num then compareAt h c i else .ok false) = .ok b ∧
      (b = false ↔ Edge (Precedes cmp) h.elems i c) := by
  have hlen := hw.length
  by_cases hlt : c < h.vals.num
  · have hy := getElem?_eq_getElem (show c < h.elems.length by omega)
    have hx := getElem?_eq_getElem (show i < h.elems.length by omega)
    generalize h.elems[c] = y at hy
    generalize h.elems[i] = x at hx
    refine ⟨_, (if_pos hlt).trans (compareAt_ok hw hy hx), ?_⟩
    rw [decide_eq_false_iff_not]
    constructor
    · intro hnot u v hu hv
      rw [← Option.some.inj (hx.symm.trans hu), ← Option.some.inj (hy.symm.trans hv)]
      exact hnot
    · exact fun hedge => hedge x y hx hy
  · have hnone : h.elems[c]? = none := List.getElem?_eq_none (by omega)
    refine ⟨false, if_neg hlt, iff_of_true rfl fun u v _ hv => ?_⟩
    rw [hnone] at hv
    exact nomatch hv

theorem trickleLoop_stop (hpick : pickChild h i = .ok (-1)) {fuel : Nat} :
    trickleLoop (fuel + 2) h i = .ok h := by
  rw [trickleLoop, if_pos (Int.natCast_nonneg i), Int.toNat_natCast, hpick, ok_bind,
    if_neg (by decide), ok_bind, trickleLoop, if_neg (by decide)]

variable [IsStrictWeakOrder α (Precedes cmp)]

/-! ### The loops -/

/-- **`bubble_up` puts the elements in order.** -/
theorem bubbleLoop_ok (fuel : Nat) : ∀ {h : PrioHeap α} {index : Nat}, h.Wf cmp → index < fuel →
    index < h.elems.length → Up (Precedes cmp) h.elems index →
      ∃ h', bubbleLoop fuel h index = .ok h' ∧ Restored cmp h h' := by
  induction fuel with
  | zero => exact fun _ hlt => absurd hlt (Nat.not_lt_zero _)
  | succ fuel ih =>
    intro h index hw hfuel hlen hup
    rw [bubbleLoop]
    by_cases hpos : 0 < index
    · have hp : PARENT index < index := parent_lt hpos
      have hx := getElem?_eq_getElem hlen
      have hy := getElem?_eq_getElem (lt_trans hp hlen)
      generalize h.elems[index] = x at hx
      generalize h.elems[PARENT index] = y at hy
      rw [if_pos hpos, compareAt_ok hw hx hy, ok_bind]
      by_cases hlt : cmp x y ≠ 0
      · obtain ⟨vals, hswap, hv, helems⟩ := arraySwap_ok hw.vals hx hy
        rw [decide_eq_true hlt, if_pos rfl, hswap, ok_bind]
        have hup' : Up (Precedes cmp) vals.elems (PARENT index) :=
          helems ▸ hup.swap hpos hx hy hlt
        have hlen' : PARENT index < vals.elems.length := by
          rw [helems, length_set, length_set]
          exact lt_trans hp hlen
        obtain ⟨h', hrun, hr⟩ := ih (hw.with_vals hv) (by omega) hlen' hup'
        refine ⟨h', hrun, hr.wf, hr.ordered, hr.perm.trans ?_⟩
        change vals.elems.Perm _
        rw [helems]
        exact perm_swap hx hy
      · rw [decide_eq_false hlt, if_neg Bool.false_ne_true]
        refine ⟨h, rfl, hw, hup.ordered fun _ u v hu hv => ?_, .refl _⟩
        obtain rfl : x = v := Option.some.inj (hx.symm.trans hv)
        obtain rfl : y = u := Option.some.inj (hy.symm.trans hu)
        exact hlt
    · rw [if_neg hpos, ok_bind, if_neg Bool.false_ne_true]
      exact ⟨h, rfl, hw, hup.ordered fun h0 => absurd h0 hpos, .refl _⟩

/-- `trickle_down` picks a child that is out of place, if there is one. -/
theorem pickChild_cases (hw : h.Wf cmp) (hi : i < 2 ^ 30) :
    (pickChild h i = .ok (-1) ∧ ∀ k, 0 < k → parent k = i → Edge (Precedes cmp) h.elems i k) ∨
    ∃ (j : Nat) (x y : α), pickChild h i = .ok (j : Int) ∧ Picked cmp h.elems i j x y := by
  have hnum := hw.vals.num_lt
  have hlen := hw.length
  rw [pickChild, RIGHT_eq hi, LEFT_eq hi]
  obtain ⟨br, hbr, hr⟩ := childBefore_ok hw (show i < 2 * i + 2 by omega)
  obtain ⟨bl, hbl, hl⟩ := childBefore_ok hw (show i < 2 * i + 1 by omega)
  rw [hbr, ok_bind]
  cases br with
  | true =>
    obtain ⟨x, yr, hx, hyr, hrx⟩ := not_edge (hr.not.1 Bool.noConfusion)
    have hrlt := (List.getElem?_eq_some_iff.1 hyr).1
    have hyl := getElem?_eq_getElem (show 2 * i + 1 < h.elems.length by omega)
    generalize h.elems[2 * i + 1] = yl at hyl
    rw [if_pos rfl, compareAt_ok hw hyl hyr, ok_bind]
    by_cases hlr : Precedes cmp yl yr
    · refine .inr ⟨2 * i + 1, x, yl, ?_, .of_children hx (.inl rfl) hyl (trans_of _ hlr hrx)
        (irrefl_at hyl) (fun z hz => ?_)⟩
      · rw [decide_eq_true (show cmp yl yr ≠ 0 from hlr), if_pos rfl, wordToInt_eq (by omega)]
      · rw [Option.some.inj (hz.symm.trans hyr)]
        exact not_lt_of_lt hlr
    · refine .inr ⟨2 * i + 2, x, yr, ?_, .of_children hx (.inr rfl) hyr hrx (fun z hz => ?_)
        (irrefl_at hyr)⟩
      · rw [decide_eq_false (show ¬ cmp yl yr ≠ 0 from hlr), if_neg Bool.false_ne_true,
          wordToInt_eq (by omega)]
      · rw [Option.some.inj (hz.symm.trans hyl)]
        exact hlr
  | false =>
    rw [if_neg Bool.false_ne_true, hbl, ok_bind]
    cases bl with
    | true =>
      obtain ⟨x, yl, hx, hyl, hlx⟩ := not_edge (hl.not.1 Bool.noConfusion)
      refine .inr ⟨2 * i + 1, x, yl, ?_, .of_children hx (.inl rfl) hyl hlx (irrefl_at hyl)
        (fun z hz hzl => hr.1 rfl x z hx hz (trans_of _ hzl hlx))⟩
      rw [if_pos rfl, wordToInt_eq (by omega)]
    | false =>
      refine .inl ⟨rfl, fun k hk hki => ?_⟩
      rcases (parent_eq_iff hk).1 hki with rfl | rfl
      · exact hl.1 rfl
      · exact hr.1 rfl

/-- **`trickle_down` puts the elements in order.** -/
theorem trickleLoop_ok (fuel : Nat) : ∀ {h : PrioHeap α} {index : Nat}, h.Wf cmp → index < 2 ^ 30 →
    h.elems.length < fuel + index → Down (Precedes cmp) h.elems index →
      ∃ h', trickleLoop (fuel + 2) h index = .ok h' ∧ Restored cmp h h' := by
  induction fuel with
  | zero =>
    intro h index hw hi hfuel hdown
    rcases pickChild_cases hw hi with ⟨hpick, hedges⟩ | ⟨j, x, y, hpick, hp⟩
    · exact ⟨h, trickleLoop_stop hpick, hw, hdown.ordered hedges, .refl _⟩
    · have := (List.getElem?_eq_some_iff.1 hp.above).1
      omega
  | succ fuel ih =>
    intro h index hw hi hfuel hdown
    rcases pickChild_cases hw hi with ⟨hpick, hedges⟩ | ⟨j, x, y, hpick, hp⟩
    · exact ⟨h, trickleLoop_stop hpick, hw, hdown.ordered hedges, .refl _⟩
    · have hji : index < j := hp.parent ▸ parent_lt hp.pos
      have hj := (List.getElem?_eq_some_iff.1 hp.child).1
      have hnum := hw.vals.num_le.trans hw.vals.le
      rw [hw.length] at hj
      obtain ⟨vals, hswap, hv, helems⟩ := arraySwap_ok hw.vals hp.child hp.above
      have hdown' : Down (Precedes cmp) vals.elems j :=
        helems ▸ hdown.swap hp.pos hp.parent hp.child hp.above hp.lt hp.least
      have hlen : vals.elems.length = h.elems.length := by
        rw [helems, length_set, length_set]
        rfl
      obtain ⟨h', hrun, hr⟩ := ih (hw.with_vals hv) (by omega)
        (show vals.elems.length < fuel + j by omega) hdown'
      refine ⟨h', ?_, hr.wf, hr.ordered, hr.perm.trans ?_⟩
      · rw [trickleLoop, if_pos (Int.natCast_nonneg index), Int.toNat_natCast, hpick, ok_bind,
          if_pos (Int.natCast_nonneg j), Int.toNat_natCast, hswap, ok_bind]
        exact hrun
      · change vals.elems.Perm _
        rw [helems]
        exact perm_swap hp.child hp.above

/-! ### The calls -/

/-- **`heap_push` adds the element**, unless `kmalloc` fails. -/
theorem heapPush_ok [Inhabited α] (hw : h.Wf cmp) (ho : Ordered (Precedes cmp) h.elems) (x : α)
    (hroom : h.vals.num < 2 ^ 29) :
    ∃ h', heapPush h x = .ok (0, some h') ∧ h'.Wf cmp ∧ Ordered (Precedes cmp) h'.elems ∧
      h'.elems.Perm (x :: h.elems) := by
  rcases arrayAdd_cases hw.vals x with ⟨-, vals, hadd, hv, helems⟩ | ⟨hfull, -⟩
  · have hlen : vals.num = h.vals.num + 1 := by
      rw [← hv.length_elems, helems, List.length_append, hw.vals.length_elems]
      rfl
    have hsub : Word.sub vals.num 1 = h.vals.num := by
      rw [Word.sub_eq]
      omega
    have hup : Up (Precedes cmp) vals.elems h.vals.num := by
      rw [helems, ← hw.length]
      exact ho.up x
    obtain ⟨h', hrun, hr⟩ := bubbleLoop_ok loopFuel (hw.with_vals hv)
      (show h.vals.num < 2 ^ 32 by omega) (show h.vals.num < vals.elems.length by
        rw [hv.length_elems]; omega) hup
    refine ⟨h', ?_, hr.wf, hr.ordered, hr.perm.trans ?_⟩
    · rw [heapPush, hw.assertHeap, ok_bind, hadd, ok_bind]
      dsimp only
      rw [if_neg (by decide), hsub, beq_self_eq_true, assert_true, ok_bind, bubbleUp,
        wordToInt_eq (by omega), decide_eq_true (Int.natCast_nonneg _), assert_true, ok_bind,
        (hw.with_vals hv).assertHeap, ok_bind, Int.toNat_natCast, hrun, ok_bind]
    · change vals.elems.Perm _
      rw [helems]
      exact List.perm_append_singleton x h.elems
  · omega

omit [IsStrictWeakOrder α (Precedes cmp)] in
theorem heapPop_empty (hw : h.Wf cmp) (he : h.elems = []) : heapPop h = .ok (none, h) := by
  have hnum : h.vals.num = 0 := by
    rw [← hw.length, he]
    rfl
  rw [heapPop, hw.assertHeap, ok_bind, if_pos hnum]

/-- **`heap_pop` removes the first element.** -/
theorem heapPop_ok (hw : h.Wf cmp) (ho : Ordered (Precedes cmp) h.elems)
    (hx : h.elems[0]? = some x) :
    ∃ h', heapPop h = .ok (some x, h') ∧ h'.Wf cmp ∧ Ordered (Precedes cmp) h'.elems ∧
      h.elems.Perm (x :: h'.elems) := by
  have hlen := hw.length
  have hpos := (List.getElem?_eq_some_iff.1 hx).1
  have hmax := hw.vals.num_le.trans hw.vals.le
  have hsub : Word.sub h.vals.num 1 = h.vals.num - 1 := Word.sub_eq
  have hy := getElem?_eq_getElem (show h.vals.num - 1 < h.elems.length by omega)
  generalize h.elems[h.vals.num - 1] = y at hy
  -- the array with the last element in front, and one element less
  let vals : KArray α := ⟨h.vals.v.set 0 y, h.vals.num - 1, h.vals.max⟩
  have hv : vals.Wf :=
    ⟨(length_set).trans hw.vals.length, (Nat.sub_le _ _).trans hw.vals.num_le,
      hw.vals.pow, hw.vals.le⟩
  have helems : vals.elems = (h.elems.set 0 y).take (h.elems.length - 1) := by
    rw [hlen, PrioHeap.elems, ← KArray.elems_set h.vals, KArray.elems, KArray.elems, List.take_take,
      Nat.min_eq_left (Nat.sub_le _ _)]
  have hdown : Down (Precedes cmp) vals.elems 0 := helems ▸ ho.down y _
  have hfuel : vals.elems.length < (2 ^ 32 - 2) + 0 := by
    rw [hv.length_elems]
    change h.vals.num - 1 < _
    omega
  obtain ⟨h', hrun, hr⟩ := trickleLoop_ok (2 ^ 32 - 2) (hw.with_vals hv) (by decide) hfuel hdown
  refine ⟨h', ?_, hr.wf, hr.ordered, ?_⟩
  · rw [heapPop, hw.assertHeap, ok_bind, if_neg (by omega), arrayGet_ok hx, ok_bind, hsub,
      arrayGet_ok hy, ok_bind, arraySet_ok hx, ok_bind]
    rw [hsub, trickleDown, decide_eq_true (Int.le_refl 0), assert_true, ok_bind,
      (hw.with_vals hv).assertHeap, ok_bind]
    change trickleLoop (2 ^ 32 - 2 + 2) { h with vals := vals } (0 : Nat) >>= _ = _
    rw [hrun, ok_bind]
  · refine (perm_take hx (hlen ▸ hy)).trans (List.Perm.cons x ?_)
    rw [← helems]
    exact hr.perm.symm

end

end JinxOS
