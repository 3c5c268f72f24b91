import Mathlib.Tactic.Common

/-!
# Binary heaps in lists

A binary tree is kept in a list, level by level, so that the place above `i` is `(i - 1) / 2`.  The
list is `Ordered` if no element precedes the one above it; the relation is any strict weak order.

The two ways to repair a heap work on lists that are ordered but for one place.  In `Up l i` only
the element at `i` may precede the one above it, and in `Down l i` only those below `i` may precede
the one at `i`.  A swap moves the place (`Up.swap`, `Down.swap`), and `Up.ordered` and
`Down.ordered` say when it is gone.
-/

namespace BinaryHeap

/-- The place above. -/
def parent (i : Nat) : Nat := (i - 1) / 2

theorem parent_lt {i : Nat} (h : 0 < i) : parent i < i := by
  rw [parent]
  omega

theorem parent_eq_iff {i k : Nat} (hk : 0 < k) : parent k = i ↔ k = 2 * i + 1 ∨ k = 2 * i + 2 := by
  rw [parent]
  omega

variable {α : Type} (lt : α → α → Prop)

/-- The element at `c` does not precede the one at `p`. -/
def Edge (l : List α) (p c : Nat) : Prop := ∀ x y, l[p]? = some x → l[c]? = some y → ¬ lt y x

/-- No element precedes the one above it. -/
def Ordered (l : List α) : Prop := ∀ k, 0 < k → Edge lt l (parent k) k

/-- Only the element at `i` may precede the one above it. -/
structure Up (l : List α) (i : Nat) : Prop where
  edges : ∀ k, 0 < k → k ≠ i → Edge lt l (parent k) k
  /-- What is below `i` does not precede what is above `i`. -/
  above : ∀ k, 0 < k → parent k = i → 0 < i → Edge lt l (parent i) k

/-- Only the elements below `i` may precede the one at `i`. -/
structure Down (l : List α) (i : Nat) : Prop where
  edges : ∀ k, 0 < k → parent k ≠ i → Edge lt l (parent k) k
  /-- What is below `i` does not precede what is above `i`. -/
  above : ∀ k, 0 < k → parent k = i → 0 < i → Edge lt l (parent i) k

variable {lt} {l l' : List α} {i j : Nat} {x y : α}

theorem not_edge (h : ¬ Edge lt l i j) : ∃ x y, l[i]? = some x ∧ l[j]? = some y ∧ lt y x := by
  rw [Edge] at h
  push Not at h
  exact h

/-! ## The order -/

section
variable [IsStrictWeakOrder α lt]

theorem not_lt_of_lt (h : lt x y) : ¬ lt y x := fun h' => irrefl_of lt x (trans_of lt h h')

theorem irrefl_at (hx : l[i]? = some x) (y : α) (hy : l[i]? = some y) : ¬ lt y x := by
  rw [Option.some.inj (hx.symm.trans hy)]
  exact irrefl_of lt y

theorem not_lt_trans {z : α} (hxy : ¬ lt y x) (hyz : ¬ lt z y) : ¬ lt z x := by
  intro hzx
  by_cases hyx : lt x y
  · exact hyz (trans_of lt hzx hyx)
  · by_cases hzy : lt y z
    · exact hxy (trans_of lt hzy hzx)
    · exact (IsStrictWeakOrder.incomp_trans x y z ⟨hyx, hxy⟩ ⟨hzy, hyz⟩).2 hzx

/-- **The first element is not preceded by any.** -/
theorem Ordered.not_lt_head (h : Ordered lt l) (hx : l[0]? = some x) :
    ∀ (k : Nat) {y : α}, l[k]? = some y → ¬ lt y x := by
  intro k
  induction k using Nat.strongRecOn with
  | ind k ih =>
    intro y hy
    by_cases hk : k = 0
    · subst hk
      obtain rfl : x = y := Option.some.inj (hx.symm.trans hy)
      exact irrefl_of lt x
    · have hpos : 0 < k := Nat.pos_of_ne_zero hk
      have hlt : parent k < l.length :=
        Nat.lt_trans (parent_lt hpos) (List.getElem?_eq_some_iff.1 hy).1
      have hz := List.getElem?_eq_getElem hlt
      exact not_lt_trans (ih (parent k) (parent_lt hpos) hz) (h k hpos _ _ hz hy)

end

/-! ## Swaps -/

theorem getElem?_swap (hi : l[i]? = some x) (hj : l[j]? = some y) (k : Nat) :
    ((l.set i y).set j x)[k]? = if k = j then some x else if k = i then some y else l[k]? := by
  have hilt : i < l.length := (List.getElem?_eq_some_iff.1 hi).1
  have hjlt : j < l.length := (List.getElem?_eq_some_iff.1 hj).1
  rw [List.getElem?_set, List.getElem?_set, List.length_set]
  by_cases hkj : k = j
  · subst hkj
    rw [if_pos rfl, if_pos rfl, if_pos hjlt]
  · rw [if_neg (Ne.symm hkj), if_neg hkj]
    by_cases hki : k = i
    · subst hki
      rw [if_pos rfl, if_pos rfl, if_pos hilt]
    · rw [if_neg (Ne.symm hki), if_neg hki]

theorem perm_swap (hi : l[i]? = some x) (hj : l[j]? = some y) : ((l.set i y).set j x).Perm l := by
  obtain ⟨hilt, rfl⟩ := List.getElem?_eq_some_iff.1 hi
  obtain ⟨hjlt, rfl⟩ := List.getElem?_eq_some_iff.1 hj
  exact List.set_set_perm hilt hjlt

section
variable [IsStrictWeakOrder α lt]

theorem Up.swap (h : Up lt l i) (hi : 0 < i) (hx : l[i]? = some x) (hy : l[parent i]? = some y)
    (hlt : lt x y) : Up lt ((l.set i y).set (parent i) x) (parent i) := by
  have hget := getElem?_swap hx hy
  have hpi := parent_lt hi
  refine ⟨fun k hk hkp u v hu hv => ?_, fun k hk hkp hpos u v hu hv => ?_⟩
  · rw [hget] at hu hv
    rw [if_neg hkp] at hv
    by_cases hki : k = i
    · subst hki
      rw [if_pos rfl] at hu hv
      obtain rfl : x = u := Option.some.inj hu
      obtain rfl : y = v := Option.some.inj hv
      exact not_lt_of_lt hlt
    · rw [if_neg hki] at hv
      by_cases hpp : parent k = parent i
      · rw [if_pos hpp] at hu
        obtain rfl : x = u := Option.some.inj hu
        have hedge := h.edges k hk hki y v (hpp ▸ hy) hv
        exact fun hvx => hedge (trans_of lt hvx hlt)
      · rw [if_neg hpp] at hu
        by_cases hpk : parent k = i
        · rw [if_pos hpk] at hu
          obtain rfl : y = u := Option.some.inj hu
          exact h.above k hk hpk hi y v hy hv
        · rw [if_neg hpk] at hu
          exact h.edges k hk hki u v hu hv
  · have hpp := parent_lt hpos
    rw [hget, if_neg (by omega), if_neg (by omega)] at hu
    have hfirst := h.edges (parent i) hpos (by omega) u y hu hy
    have hkp' := parent_lt hk
    rw [hget, if_neg (by omega)] at hv
    by_cases hki : k = i
    · rw [if_pos hki] at hv
      obtain rfl : y = v := Option.some.inj hv
      exact hfirst
    · rw [if_neg hki] at hv
      exact not_lt_trans hfirst (h.edges k hk hki y v (hkp ▸ hy) hv)

/-- The element moves down, in place of one that none of those below precedes. -/
theorem Down.swap (h : Down lt l i) (hj : 0 < j) (hji : parent j = i) (hy : l[j]? = some y)
    (hx : l[i]? = some x) (hlt : lt y x)
    (hmin : ∀ k z, 0 < k → parent k = i → l[k]? = some z → ¬ lt z y) :
    Down lt ((l.set j x).set i y) j := by
  have hget := getElem?_swap hy hx
  have hij : i < j := hji ▸ parent_lt hj
  refine ⟨fun k hk hkp u v hu hv => ?_, fun k hk hkp _ u v hu hv => ?_⟩
  · rw [hget] at hu hv
    rw [if_neg hkp] at hu
    have hpk := parent_lt hk
    by_cases hki : k = i
    · rw [if_pos hki] at hv
      obtain rfl : y = v := Option.some.inj hv
      rw [if_neg (by omega)] at hu
      exact h.above j hj hji (hki ▸ hk) u y (hki ▸ hu) hy
    · rw [if_neg hki] at hv
      by_cases hkj : k = j
      · rw [if_pos hkj] at hv
        obtain rfl : x = v := Option.some.inj hv
        rw [hkj, if_pos hji] at hu
        obtain rfl : y = u := Option.some.inj hu
        exact not_lt_of_lt hlt
      · rw [if_neg hkj] at hv
        by_cases hpi : parent k = i
        · rw [if_pos hpi] at hu
          obtain rfl : y = u := Option.some.inj hu
          exact hmin k v hk hpi hv
        · rw [if_neg hpi] at hu
          exact h.edges k hk hpi u v hu hv
  · have hpk := parent_lt hk
    rw [hget, hji, if_pos rfl] at hu
    obtain rfl : y = u := Option.some.inj hu
    rw [hget, if_neg (by omega), if_neg (by omega)] at hv
    exact h.edges k hk (by omega) y v (hkp ▸ hy) hv

end

/-! ## Beginning and end -/

theorem Up.ordered (h : Up lt l i) (hi : 0 < i → Edge lt l (parent i) i) : Ordered lt l := by
  intro k hk
  by_cases hki : k = i
  · exact hki ▸ hi (hki ▸ hk)
  · exact h.edges k hk hki

theorem Down.ordered (h : Down lt l i) (hi : ∀ k, 0 < k → parent k = i → Edge lt l i k) :
    Ordered lt l := by
  intro k hk
  by_cases hki : parent k = i
  · exact hki ▸ hi k hk hki
  · exact h.edges k hk hki

theorem Ordered.up (h : Ordered lt l) (x : α) : Up lt (l ++ [x]) l.length := by
  have hend : ∀ {k : Nat}, l.length < k → (l ++ [x])[k]? = none := by
    intro k hk
    refine List.getElem?_eq_none ?_
    rw [List.length_append, List.length_singleton]
    exact hk
  refine ⟨fun k hk hne u v hu hv => ?_, fun k hk hkp _ u v _ hv => ?_⟩
  · by_cases hlt : k < l.length
    · rw [List.getElem?_append_left hlt] at hv
      rw [List.getElem?_append_left (Nat.lt_trans (parent_lt hk) hlt)] at hu
      exact h k hk u v hu hv
    · rw [hend (by omega)] at hv
      exact nomatch hv
  · have := parent_lt hk
    rw [hend (by omega)] at hv
    exact nomatch hv

theorem Ordered.down (h : Ordered lt l) (y : α) (n : Nat) : Down lt ((l.set 0 y).take n) 0 := by
  have hsub : ∀ {k : Nat} {z : α}, 0 < k → ((l.set 0 y).take n)[k]? = some z → l[k]? = some z := by
    intro k z hk hz
    rw [List.getElem?_take] at hz
    split at hz
    · rwa [List.getElem?_set_ne (Nat.ne_of_lt hk)] at hz
    · exact nomatch hz
  exact ⟨fun k hk hne u v hu hv => h k hk u v (hsub (Nat.pos_of_ne_zero hne) hu) (hsub hk hv),
    fun _ _ _ hpos => absurd hpos (Nat.lt_irrefl 0)⟩

theorem perm_take (hx : l[0]? = some x) (hy : l[l.length - 1]? = some y) :
    l.Perm (x :: (l.set 0 y).take (l.length - 1)) := by
  match l with
  | [] => exact nomatch hx
  | [z] =>
    obtain rfl : z = x := Option.some.inj hx
    exact .refl _
  | z :: w :: t =>
    obtain rfl : z = x := Option.some.inj hx
    have hlast : (w :: t).getLast? = some y := by
      rw [List.getLast?_eq_getElem?]
      exact hy
    obtain ⟨init, hinit⟩ := List.getLast?_eq_some_iff.1 hlast
    have htake : ((z :: w :: t).set 0 y).take ((z :: w :: t).length - 1) = y :: init := by
      rw [hinit, List.set_cons_zero, List.length_cons, Nat.add_sub_cancel, List.length_append,
        List.length_singleton, List.take_succ_cons, List.take_left]
    rw [htake, hinit]
    exact (List.perm_append_singleton y init).cons z

end BinaryHeap
