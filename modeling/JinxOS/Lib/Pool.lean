import Mathlib.Data.List.Nodup
import Mathlib.Data.List.Perm.Subperm

/-!
# Pools of numbers

An allocator of numbers that hands out `lo`, `lo + 1` and so on, and prefers a number that was given
back. It keeps the numbers in use, the list of those given back, and the next number that was never
used; `Pool` says that these agree.  There is one lemma for each thing that such an allocator does.

`Owned` is about those who use the numbers: every number in use has one owner.
-/

/-- The numbers from `lo` up to `next` are in use or in the list, and no other number is. -/
structure Pool (used : Nat → Prop) (free : List Nat) (lo next : Nat) : Prop where
  nodup : free.Nodup
  free_mem : ∀ p ∈ free, lo ≤ p ∧ p < next
  used_mem : ∀ p, used p → lo ≤ p ∧ p < next
  cover : ∀ p, lo ≤ p → p < next → used p ∨ p ∈ free
  disjoint : ∀ p ∈ free, ¬ used p
  le : lo ≤ next

namespace Pool

variable {used used' : Nat → Prop} {free : List Nat} {lo next p : Nat}

theorem empty (lo : Nat) (h : ∀ p, ¬ used p) : Pool used [] lo lo where
  nodup := .nil
  free_mem _ hp := nomatch hp
  used_mem p hp := absurd hp (h p)
  cover _ hlo hlt := absurd hlt (Nat.not_lt.2 hlo)
  disjoint _ hp := nomatch hp
  le := Nat.le_refl lo

theorem reuse (h : Pool used (p :: free) lo next) (hu : ∀ q, used' q ↔ used q ∨ q = p) :
    Pool used' free lo next := by
  obtain ⟨hp, hnodup⟩ := List.nodup_cons.1 h.nodup
  refine ⟨hnodup, fun q hq => h.free_mem q (List.mem_cons_of_mem p hq), fun q hq => ?_,
    fun q hlo hlt => ?_, fun q hq hused => ?_, h.le⟩
  · rcases (hu q).1 hq with hq | rfl
    · exact h.used_mem q hq
    · exact h.free_mem q List.mem_cons_self
  · rcases h.cover q hlo hlt with hq | hq
    · exact .inl ((hu q).2 (.inl hq))
    · rcases List.mem_cons.1 hq with rfl | hq
      · exact .inl ((hu q).2 (.inr rfl))
      · exact .inr hq
  · rcases (hu q).1 hused with hused | rfl
    · exact h.disjoint q (List.mem_cons_of_mem p hq) hused
    · exact hp hq

section
variable (h : Pool used free lo next)
include h

theorem fresh (hu : ∀ q, used' q ↔ used q ∨ q = next) : Pool used' free lo (next + 1) := by
  have hle := h.le
  refine ⟨h.nodup, fun q hq => ?_, fun q hq => ?_, fun q hlo hlt => ?_,
    fun q hq hused => ?_, by omega⟩
  · have := h.free_mem q hq
    omega
  · rcases (hu q).1 hq with hq | rfl
    · have := h.used_mem q hq
      omega
    · omega
  · by_cases hq : q = next
    · exact .inl ((hu q).2 (.inr hq))
    · exact (h.cover q hlo (by omega)).imp_left fun hused => (hu q).2 (.inl hused)
  · rcases (hu q).1 hused with hused | rfl
    · exact h.disjoint q hq hused
    · exact Nat.lt_irrefl q (h.free_mem q hq).2

theorem giveBack (hp : used p) (hu : ∀ q, used' q ↔ used q ∧ q ≠ p) :
    Pool used' (free ++ [p]) lo next := by
  have hnot : p ∉ free := fun hmem => h.disjoint p hmem hp
  refine ⟨?_, fun q hq => ?_, fun q hq => h.used_mem q ((hu q).1 hq).1, fun q hlo hlt => ?_,
    fun q hq hused => ?_, h.le⟩
  · rw [List.nodup_append_comm]
    exact List.nodup_cons.2 ⟨hnot, h.nodup⟩
  · rcases List.mem_append.1 hq with hq | hq
    · exact h.free_mem q hq
    · exact List.mem_singleton.1 hq ▸ h.used_mem p hp
  · by_cases hq : q = p
    · exact .inr (List.mem_append.2 (.inr (List.mem_singleton.2 hq)))
    · rcases h.cover q hlo hlt with hused | hmem
      · exact .inl ((hu q).2 ⟨hused, hq⟩)
      · exact .inr (List.mem_append.2 (.inl hmem))
  · obtain ⟨hused, hne⟩ := (hu q).1 hused
    rcases List.mem_append.1 hq with hq | hq
    · exact h.disjoint q hq hused
    · exact hne (List.mem_singleton.1 hq)

theorem length_le : free.length ≤ next := by
  have hsub : free ⊆ List.range next := fun p hp => List.mem_range.2 (h.free_mem p hp).2
  have hlen := (h.nodup.subperm hsub).length_le
  rwa [List.length_range] at hlen

/-- A number below `next` is in use, or in the list once, and not both. -/
theorem count (hlo : lo ≤ p) (hlt : p < next) :
    used p ∧ free.count p = 0 ∨ ¬ used p ∧ free.count p = 1 := by
  by_cases hp : used p
  · exact .inl ⟨hp, List.count_eq_zero_of_not_mem fun hmem => h.disjoint p hmem hp⟩
  · exact .inr ⟨hp, List.count_eq_one_of_mem h.nodup ((h.cover p hlo hlt).resolve_left hp)⟩

end

end Pool

/-- The numbers in use are those that have an owner, and no number has two. -/
structure Owned {α : Type} (owns : α → Nat → Prop) (used : Nat → Prop) : Prop where
  used_iff : ∀ q, used q ↔ ∃ a, owns a q
  unique : ∀ a b q, owns a q → owns b q → a = b

namespace Owned

variable {α : Type} {owns owns' : α → Nat → Prop} {used used' : Nat → Prop} {a : α} {p : Nat}

theorem add (h : Owned owns used) (hp : ¬ used p) (ho : ∀ b q, owns' b q ↔ owns b q ∨ b = a ∧ q = p)
    (hu : ∀ q, used' q ↔ used q ∨ q = p) : Owned owns' used' := by
  have hnot : ∀ b, ¬ owns b p := fun b hb => hp ((h.used_iff p).2 ⟨b, hb⟩)
  refine ⟨fun q => ?_, fun b c q hb hc => ?_⟩
  · rw [hu, h.used_iff]
    constructor
    · rintro (⟨b, hb⟩ | rfl)
      · exact ⟨b, (ho b q).2 (.inl hb)⟩
      · exact ⟨a, (ho a q).2 (.inr ⟨rfl, rfl⟩)⟩
    · rintro ⟨b, hb⟩
      exact ((ho b q).1 hb).imp (fun hb => ⟨b, hb⟩) fun hb => hb.2
  · rcases (ho b q).1 hb with hb | ⟨rfl, rfl⟩
    · rcases (ho c q).1 hc with hc | ⟨rfl, rfl⟩
      · exact h.unique b c q hb hc
      · exact absurd hb (hnot b)
    · rcases (ho c q).1 hc with hc | ⟨rfl, -⟩
      · exact absurd hc (hnot c)
      · rfl

theorem remove (h : Owned owns used) (hp : ∀ q, owns a q ↔ q = p)
    (ho : ∀ b q, owns' b q ↔ owns b q ∧ b ≠ a) (hu : ∀ q, used' q ↔ used q ∧ q ≠ p) :
    Owned owns' used' := by
  have hap : owns a p := (hp p).2 rfl
  refine ⟨fun q => ?_, fun b c q hb hc => h.unique b c q ((ho b q).1 hb).1 ((ho c q).1 hc).1⟩
  rw [hu, h.used_iff]
  constructor
  · rintro ⟨⟨b, hb⟩, hne⟩
    refine ⟨b, (ho b q).2 ⟨hb, ?_⟩⟩
    rintro rfl
    exact hne ((hp q).1 hb)
  · rintro ⟨b, hb⟩
    obtain ⟨hb, hne⟩ := (ho b q).1 hb
    refine ⟨⟨b, hb⟩, ?_⟩
    rintro rfl
    exact hne (h.unique b a q hb hap)

end Owned
