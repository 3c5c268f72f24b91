import Mathlib.Data.List.Nodup

/-!
# Lists of buckets

A collection is kept in buckets, a list of lists, and a function says to which bucket an element
belongs. `Placed` says that every element is where it belongs.  What the collection holds is the
concatenation `flatten` of the buckets, up to order; a change of one bucket changes it by what the
bucket loses and gains (`flatten_perm`, `flatten_set_perm`).

The second half is about collections that have a key for every element, each at most once.  `others
k l` is what is left of `l` without the key `k`.
-/

namespace Buckets

variable {α : Type}

/-- Every element is in the bucket where it belongs. -/
def Placed (slot : α → Nat) (bs : List (List α)) : Prop :=
  ∀ i b, bs[i]? = some b → ∀ x ∈ b, slot x = i

variable {slot : α → Nat} {bs : List (List α)} {i : Nat} {b b' : List α} {x : α}

theorem flatten_perm (h : bs[i]? = some b) : bs.flatten.Perm (b ++ (bs.eraseIdx i).flatten) := by
  induction bs generalizing i with
  | nil => exact nomatch h
  | cons c bs ih =>
    cases i with
    | zero =>
      obtain rfl : c = b := Option.some.inj h
      exact List.Perm.refl _
    | succ i =>
      rw [List.flatten_cons, List.eraseIdx_cons_succ, List.flatten_cons]
      refine ((ih h).append_left c).trans ?_
      rw [← List.append_assoc, ← List.append_assoc]
      exact List.perm_append_comm.append_right _

theorem eraseIdx_set : (bs.set i b').eraseIdx i = bs.eraseIdx i := by
  induction bs generalizing i with
  | nil => rfl
  | cons c bs ih =>
    cases i with
    | zero => rfl
    | succ i => rw [List.set_cons_succ, List.eraseIdx_cons_succ, List.eraseIdx_cons_succ, ih]

theorem flatten_set_perm (h : bs[i]? = some b) (b' : List α) :
    (bs.set i b').flatten.Perm (b' ++ (bs.eraseIdx i).flatten) := by
  have hlt : i < bs.length := (List.getElem?_eq_some_iff.1 h).1
  have hperm := flatten_perm (List.getElem?_set_self (a := b') hlt)
  rwa [eraseIdx_set] at hperm

theorem Placed.set (h : Placed slot bs) (hb : ∀ x ∈ b', slot x = i) :
    Placed slot (bs.set i b') := by
  intro j c hc x hx
  by_cases hj : i = j
  · subst hj
    have hlt : i < bs.length := by
      have := (List.getElem?_eq_some_iff.1 hc).1
      rwa [List.length_set] at this
    rw [List.getElem?_set_self hlt] at hc
    exact hb x (Option.some.inj hc ▸ hx)
  · rw [List.getElem?_set_ne hj] at hc
    exact h j c hc x hx

theorem Placed.mem_iff (h : Placed slot bs) (hb : bs[slot x]? = some b) :
    x ∈ bs.flatten ↔ x ∈ b := by
  constructor
  · intro hx
    obtain ⟨c, hc, hxc⟩ := List.mem_flatten.1 hx
    obtain ⟨j, hj⟩ := List.mem_iff_getElem?.1 hc
    obtain rfl : slot x = j := h j c hj x hxc
    exact Option.some.inj (hj.symm.trans hb) ▸ hxc
  · exact fun hx => List.mem_flatten.2 ⟨b, List.mem_iff_getElem?.2 ⟨_, hb⟩, hx⟩

theorem Placed.slot_ne (h : Placed slot bs) (hx : x ∈ (bs.eraseIdx i).flatten) : slot x ≠ i := by
  obtain ⟨c, hc, hxc⟩ := List.mem_flatten.1 hx
  obtain ⟨j, hj⟩ := List.mem_iff_getElem?.1 hc
  rw [List.getElem?_eraseIdx] at hj
  split at hj
  · rw [h j c hj x hxc]
    omega
  · rw [h (j + 1) c hj x hxc]
    omega

theorem placed_replicate (n : Nat) : Placed slot (List.replicate n ([] : List α)) := by
  intro i b hb x hx
  rw [List.eq_of_mem_replicate (List.mem_iff_getElem?.2 ⟨i, hb⟩)] at hx
  exact absurd hx List.not_mem_nil

theorem flatten_replicate_nil (n : Nat) : (List.replicate n ([] : List α)).flatten = [] := by
  simp

/-! ## Keys -/

section
variable {κ : Type} [DecidableEq κ] (key : α → κ)

/-- What is left without a key. -/
def others (k : κ) (l : List α) : List α := l.filter fun x => key x ≠ k

variable {key} {k : κ} {l l' : List α}

theorem mem_others : x ∈ others key k l ↔ x ∈ l ∧ key x ≠ k := by
  simp [others]

theorem others_cons_self (h : key x = k) : others key k (x :: l) = others key k l :=
  List.filter_cons_of_neg (by simpa using h)

theorem others_cons_of_ne (h : key x ≠ k) : others key k (x :: l) = x :: others key k l :=
  List.filter_cons_of_pos (by simpa using h)

theorem others_of_not_mem (h : k ∉ l.map key) : others key k l = l := by
  refine List.filter_eq_self.2 fun x hx => decide_eq_true ?_
  rintro rfl
  exact h (List.mem_map_of_mem hx)

theorem perm_others (h : l.Perm l') : (others key k l).Perm (others key k l') := h.filter _

theorem others_append : others key k (l ++ l') = others key k l ++ others key k l' :=
  List.filter_append ..

theorem not_mem_map_others : k ∉ (others key k l).map key := by
  intro h
  obtain ⟨x, hx, hk⟩ := List.mem_map.1 h
  exact (mem_others.1 hx).2 hk

theorem nodup_map_others (h : (l.map key).Nodup) : ((others key k l).map key).Nodup :=
  h.sublist (List.filter_sublist.map key)

theorem eraseP_eq_others (h : (l.map key).Nodup) :
    l.eraseP (fun x => key x = k) = others key k l := by
  induction l with
  | nil => rfl
  | cons x l ih =>
    obtain ⟨hx, hl⟩ := List.nodup_cons.1 h
    by_cases hk : key x = k
    · subst hk
      rw [List.eraseP_cons_of_pos (by simp), others_cons_self rfl, others_of_not_mem hx]
    · rw [List.eraseP_cons_of_neg (by simpa using hk), ih hl, others_cons_of_ne hk]

theorem find?_eq_some_iff (h : (l.map key).Nodup) :
    l.find? (fun x => key x = k) = some x ↔ x ∈ l ∧ key x = k := by
  constructor
  · intro hx
    exact ⟨List.mem_of_find?_eq_some hx, by simpa using List.find?_some hx⟩
  · rintro ⟨hx, rfl⟩
    cases hf : l.find? (fun y => key y = key x) with
    | none =>
      rw [List.find?_eq_none] at hf
      exact absurd (decide_eq_true rfl) (hf x hx)
    | some y =>
      have hy : key y = key x := by simpa using List.find?_some hf
      rw [List.inj_on_of_nodup_map h (List.mem_of_find?_eq_some hf) hx hy]

theorem find?_eq_none_iff : l.find? (fun x => key x = k) = none ↔ k ∉ l.map key := by
  simp [List.find?_eq_none]

theorem perm_cons_others (h : (l.map key).Nodup) (hx : x ∈ l) (hk : key x = k) :
    l.Perm (x :: others key k l) := by
  induction l with
  | nil => exact absurd hx List.not_mem_nil
  | cons y l ih =>
    obtain ⟨hy, hl⟩ := List.nodup_cons.1 h
    by_cases hyk : key y = k
    · have hxy : x = y := List.inj_on_of_nodup_map h hx List.mem_cons_self (hk.trans hyk.symm)
      subst hxy
      rw [others_cons_self hyk, others_of_not_mem (hk ▸ hy)]
    · have hxl : x ∈ l := (List.mem_cons.1 hx).resolve_left fun he => hyk (he ▸ hk)
      rw [others_cons_of_ne hyk]
      exact ((ih hl hxl).cons y).trans (.swap ..)

end

end Buckets
