import Mathlib.Data.Nat.ModEq

/-!
# A ring of slots and the history of what was stored in it

A producer writes the `j`-th element that it stores into slot `j % N` of `N` slots, whatever is
there. A consumer that is not told how many elements have been stored since it last looked, only at
which slot the next one goes, may have been overtaken any number of times.  What it then finds in a
slot is related here to the list of everything that was ever stored:

* `Holds` — each of the last `N` elements is in its slot;
* `Holds.newest` — a consumer that has come to the element number `next` finds one that is not
  older, and that very element if it has not been overtaken;
* `sublist_take_concat` — taking elements that get newer and newer is taking a subsequence.
-/

namespace Ring

variable {α : Type} {N : Nat} {slots : Nat → α} {stored taken : List α} {next : Nat}

/-- Each of the last `N` elements is in its slot. -/
def Holds (N : Nat) (slots : Nat → α) (stored : List α) : Prop :=
  ∀ j x, stored[j]? = some x → stored.length ≤ j + N → slots (j % N) = x

theorem holds_nil (N : Nat) (slots : Nat → α) : Holds N slots [] := by
  intro j x hx
  cases hx

/-- Two numbers that are less than `N` apart belong into different slots. -/
theorem mod_ne_mod {i j : Nat} (hlt : i < j) (hclose : j < i + N) : i % N ≠ j % N := by
  intro heq
  have hdvd : N ∣ j - i := (Nat.modEq_iff_dvd' hlt.le).1 heq
  have hle := Nat.le_of_dvd (by omega) hdvd
  omega

theorem Holds.push (h : Holds N slots stored) (x : α) :
    Holds N (Function.update slots (stored.length % N) x) (stored ++ [x]) := by
  intro j y hy hlast
  rw [List.length_append, List.length_singleton] at hlast
  rcases Nat.lt_or_ge j stored.length with hlt | hge
  · rw [List.getElem?_append_left hlt] at hy
    rw [Function.update_of_ne (mod_ne_mod hlt (by omega))]
    exact h j y hy (by omega)
  · rw [List.getElem?_append_right hge] at hy
    obtain ⟨hj, rfl⟩ := List.getElem?_eq_some_iff.1 hy
    rw [List.length_singleton] at hj
    obtain rfl : j = stored.length := by omega
    rw [Function.update_self, List.getElem_singleton]

/-- The slot of an element that has been stored holds that one or a newer one, and that very one if
no more than `N` have been stored from it on. -/
theorem Holds.newest (hN : 0 < N) (h : Holds N slots stored) (hnext : next < stored.length) :
    ∃ j x, next ≤ j ∧ j % N = next % N ∧ stored[j]? = some x ∧ slots (next % N) = x ∧
      (stored.length ≤ next + N → j = next) := by
  have hdiv := Nat.div_add_mod (stored.length - 1 - next) N
  have hmod := Nat.mod_lt (stored.length - 1 - next) hN
  have hj : next + N * ((stored.length - 1 - next) / N) < stored.length := by omega
  refine ⟨next + N * ((stored.length - 1 - next) / N), stored[_], Nat.le_add_right _ _,
    Nat.add_mul_mod_self_left _ _ _, List.getElem?_eq_getElem hj, ?_, fun hlag => ?_⟩
  · have hslot := h _ _ (List.getElem?_eq_getElem hj) (by omega)
    rwa [Nat.add_mul_mod_self_left] at hslot
  · rw [Nat.div_eq_of_lt (by omega), Nat.mul_zero, Nat.add_zero]

/-- An element after the first `next` ones may follow what was taken from these. -/
theorem sublist_take_concat {j : Nat} {x : α} (h : taken.Sublist (stored.take next)) (hj : next ≤ j)
    (hx : stored[j]? = some x) : (taken ++ [x]).Sublist (stored.take (j + 1)) := by
  obtain ⟨hlt, hget⟩ := List.getElem?_eq_some_iff.1 hx
  rw [List.take_succ_eq_append_getElem hlt, hget]
  exact (h.trans (List.take_prefix_take_left hj).sublist).append (List.Sublist.refl _)

/-- An index that is counted up and set back at `N` counts modulo `N`. -/
theorem wrap_eq (hN : 0 < N) (m : Nat) :
    (if m % N + 1 = N then 0 else m % N + 1) = (m + 1) % N := by
  have hlt := Nat.mod_lt m hN
  rw [← Nat.mod_add_mod m N 1]
  split
  · rename_i hwrap
    rw [hwrap, Nat.mod_self]
  · exact (Nat.mod_eq_of_lt (by omega)).symm

end Ring
