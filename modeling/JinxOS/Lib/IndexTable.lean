import Mathlib.Data.List.Nodup

/-!
# Tables whose entries know their place

A table of objects in which each object stores the index of its slot, so that it can be removed
without a search.  To keep the table without gaps the last entry moves to the slot that is freed,
and its index is changed.  `IndexTable` says that slots and indices agree; `push` and `swapRemove`
are the two operations.
-/

/-- The object in slot `i` is the one with index `i`. -/
def IndexTable {α : Type} (l : List α) (index : α → Option Nat) : Prop :=
  ∀ i x, l[i]? = some x ↔ index x = some i

namespace IndexTable

open Function (update update_self update_of_ne)

variable {α : Type} {l : List α} {index : α → Option Nat} {x y : α} {i : Nat}

theorem nil (h : ∀ x, index x = none) : IndexTable [] index := by
  intro i x
  rw [h x]
  simp

theorem lt (h : IndexTable l index) (hx : index x = some i) : i < l.length :=
  (List.getElem?_eq_some_iff.1 ((h i x).2 hx)).1

theorem nodup (h : IndexTable l index) : l.Nodup := by
  refine List.nodup_iff_injective_getElem.2 fun i j hij => Fin.ext ?_
  have hi := (h i l[i]).1 (List.getElem?_eq_getElem i.2)
  have hj := (h j l[j]).1 (List.getElem?_eq_getElem j.2)
  rw [show l[i] = l[j] from hij] at hi
  exact Option.some.inj (hi.symm.trans hj)

/-- An object is in the table once if it has an index, and not at all otherwise. -/
theorem count [DecidableEq α] (h : IndexTable l index) (x : α) :
    l.count x = if (index x).isSome then 1 else 0 := by
  have hmem : x ∈ l ↔ (index x).isSome := by
    rw [List.mem_iff_getElem?, Option.isSome_iff_exists]
    exact exists_congr fun i => h i x
  by_cases hx : x ∈ l
  · rw [if_pos (hmem.1 hx), List.count_eq_one_of_mem h.nodup hx]
  · rw [if_neg (fun hs => hx (hmem.2 hs)), List.count_eq_zero_of_not_mem hx]

variable [DecidableEq α]

theorem push (h : IndexTable l index) (hx : index x = none) :
    IndexTable (l ++ [x]) (update index x (some l.length)) := by
  intro i y
  by_cases hy : y = x
  · subst hy
    have hnot : ∀ j, l[j]? ≠ some y := fun j hj => nomatch hx.symm.trans ((h j y).1 hj)
    rw [update_self, List.getElem?_append]
    split
    · constructor
      · exact fun he => absurd he (hnot i)
      · intro he
        have := Option.some.inj he
        omega
    · rw [List.getElem?_singleton, Option.some.injEq]
      constructor
      · intro he
        split at he
        · omega
        · exact nomatch he
      · rintro rfl
        rw [Nat.sub_self, if_pos rfl]
  · rw [update_of_ne hy, ← h i y, List.getElem?_append]
    split
    · exact Iff.rfl
    · rw [List.getElem?_singleton, List.getElem?_eq_none (by omega)]
      constructor
      · intro he
        split at he
        · exact absurd (Option.some.inj he).symm hy
        · exact nomatch he
      · exact fun he => nomatch he

theorem swapRemove (h : IndexTable l index) (hx : index x = some i)
    (hy : index y = some (l.length - 1)) :
    IndexTable ((l.set i y).take (l.length - 1))
      (update (update index y (some i)) x none) := by
  have hi := h.lt hx
  have hxi := (h i x).2 hx
  have hslot : ∀ j, ((l.set i y).take (l.length - 1))[j]? =
      if j < l.length - 1 then if i = j then some y else l[j]? else none := by
    intro j
    rw [List.getElem?_take, List.getElem?_set, if_pos hi]
  intro j z
  rw [hslot]
  by_cases hzx : z = x
  · subst hzx
    rw [update_self]
    constructor
    · intro he
      split at he
      case isFalse => exact nomatch he
      case isTrue hj =>
        split at he
        · cases he
          have := Option.some.inj (hx.symm.trans hy)
          omega
        · have := Option.some.inj (hx.symm.trans ((h j z).1 he))
          omega
    · exact fun he => nomatch he
  · rw [update_of_ne hzx]
    by_cases hzy : z = y
    · subst hzy
      have hne : i ≠ l.length - 1 := by
        rintro rfl
        exact hzx (Option.some.inj (((h _ z).2 hy).symm.trans hxi))
      rw [update_self, Option.some.injEq]
      constructor
      · intro he
        split at he
        case isFalse => exact nomatch he
        case isTrue hj =>
          split at he
          · assumption
          · have := Option.some.inj (hy.symm.trans ((h j z).1 he))
            omega
      · rintro rfl
        rw [if_pos (by omega), if_pos rfl]
    · rw [update_of_ne hzy, ← h j z]
      constructor
      · intro he
        split at he
        case isFalse => exact nomatch he
        case isTrue hj =>
          split at he
          · exact absurd (Option.some.inj he).symm hzy
          · exact he
      · intro he
        have hj := (List.getElem?_eq_some_iff.1 he).1
        have hlast : j ≠ l.length - 1 := by
          rintro rfl
          exact hzy (Option.some.inj (he.symm.trans ((h _ y).2 hy)))
        have hij : i ≠ j := by
          rintro rfl
          exact hzx (Option.some.inj (he.symm.trans hxi))
        rw [if_pos (by omega), if_neg hij]
        exact he

end IndexTable
