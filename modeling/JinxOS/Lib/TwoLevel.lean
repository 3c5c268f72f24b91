import Mathlib.Tactic.Common

/-!
# Two-level tables

A map from pairs of indices to leaves that is kept as a directory of tables.  There are several
directories, each with its own map, and they may share tables: an entry of a directory names a
table, and what is written to a table shows in every directory that names it.

* `TwoLevel.lookup` — the map of a directory;
* `TwoLevel.Separate` — two slots that name one table have the same index, and are slots of one
  directory or of an index that is shared;
* `TwoLevel.install` — a directory gets an empty table, which changes no map (`lookup_install`);
* `TwoLevel.write` — a leaf is written, which changes one place of the maps that share the table
  (`lookup_write_self`) and nothing else (`lookup_write_of_ne`);
* `TwoLevel.copy` — a new directory gets the shared entries of another one, and agrees with it at
  the shared indices (`lookup_copy`).
-/

/-- Directories `D` and tables `F`: an entry `P` of a directory names a table, and an entry of a
table is a leaf `E`. -/
structure TwoLevel (D I J F P E : Type) where
  /-- The entries of the directories. -/
  dir : D → I → Option P
  /-- The entries of the tables. -/
  tab : F → J → Option E

namespace TwoLevel

open Function (update update_of_ne)

variable {D I J F P E : Type} (tbl : P → F) (shared : I → Prop)

/-- The two entries on the way to a leaf. -/
def lookup (t : TwoLevel D I J F P E) (d : D) (i : I) (j : J) : Option (P × E) :=
  (t.dir d i).bind fun p => (t.tab (tbl p) j).map fun e => (p, e)

/-- Two slots that name one table have the same index, and are slots of one directory or of an index
that is shared. -/
def Separate (t : TwoLevel D I J F P E) : Prop :=
  ∀ d i p d' i' p', t.dir d i = some p → t.dir d' i' = some p' → tbl p = tbl p' →
    i = i' ∧ (d = d' ∨ shared i)

/-- No slot names the table. -/
def Unused (t : TwoLevel D I J F P E) (f : F) : Prop := ∀ d i p, t.dir d i = some p → tbl p ≠ f

/-- A slot gets an entry for an empty table. -/
def install [DecidableEq D] [DecidableEq I] [DecidableEq F] (t : TwoLevel D I J F P E)
    (d : D) (i : I)
    (p : P) : TwoLevel D I J F P E where
  dir := update t.dir d (update (t.dir d) i (some p))
  tab := update t.tab (tbl p) fun _ => none

/-- A leaf is written. -/
def write [DecidableEq F] [DecidableEq J] (t : TwoLevel D I J F P E) (f : F) (j : J) (e : E) :
    TwoLevel D I J F P E where
  dir := t.dir
  tab := update t.tab f (update (t.tab f) j (some e))

/-- A new directory gets the shared entries of another one. -/
def copy [DecidableEq D] [DecidablePred shared] (t : TwoLevel D I J F P E) (d₀ d : D) :
    TwoLevel D I J F P E where
  dir := update t.dir d fun i => if shared i then t.dir d₀ i else none
  tab := t.tab

/-- Two directories name one table at an index. -/
def Shares (t : TwoLevel D I J F P E) (d d' : D) (i : I) : Prop :=
  ∃ p p', t.dir d i = some p ∧ t.dir d' i = some p' ∧ tbl p = tbl p'

/-- Some of the directories. -/
def restrict (ds : D → Prop) [DecidablePred ds] (t : TwoLevel D I J F P E) :
    TwoLevel D I J F P E where
  dir d i := if ds d then t.dir d i else none
  tab := t.tab

variable {tbl shared} {t : TwoLevel D I J F P E} {d d' d₀ : D} {i i' : I} {j j' : J}
    {p q : P} {e : E}

theorem lookup_none (h : t.dir d i = none) : t.lookup tbl d i j = none := by
  rw [lookup, h]
  rfl

theorem lookup_some (h : t.dir d i = some p) :
    t.lookup tbl d i j = (t.tab (tbl p) j).map fun e => (p, e) := by
  rw [lookup, h]
  rfl

theorem dir_of_lookup {q : P × E} (h : t.lookup tbl d i j = some q) : t.dir d i = some q.1 := by
  obtain ⟨p, hp, hq⟩ := Option.bind_eq_some_iff.1 h
  obtain ⟨e, -, rfl⟩ := Option.map_eq_some_iff.1 hq
  exact hp

theorem lookup_congr {t' : TwoLevel D I J F P E} (hdir : t'.dir d i = t.dir d i)
    (htab : ∀ p, t.dir d i = some p → t'.tab (tbl p) j = t.tab (tbl p) j) :
    t'.lookup tbl d i j = t.lookup tbl d i j := by
  cases h : t.dir d i with
  | none => rw [lookup_none h, lookup_none (hdir.trans h)]
  | some p => rw [lookup_some h, lookup_some (hdir.trans h), htab p h]

section
variable [DecidableEq D] [DecidableEq I] [DecidableEq F]

theorem dir_install_self : (t.install tbl d i p).dir d i = some p := by
  rw [install]
  simp

theorem dir_install_of_ne (h : d' ≠ d ∨ i' ≠ i) :
    (t.install tbl d i p).dir d' i' = t.dir d' i' := by
  rw [install]
  by_cases hd : d' = d
  · subst hd
    simp [update_of_ne (h.resolve_left (fun hne => hne rfl))]
  · simp [hd]

theorem tab_install_self : (t.install tbl d i p).tab (tbl p) j = none := by
  rw [install]
  simp

theorem tab_install_of_ne {f : F} (h : f ≠ tbl p) : (t.install tbl d i p).tab f = t.tab f :=
  update_of_ne h ..

theorem dir_install_cases (h : (t.install tbl d i p).dir d' i' = some q) :
    (d' = d ∧ i' = i ∧ q = p) ∨ t.dir d' i' = some q := by
  by_cases hd : d' = d ∧ i' = i
  · obtain ⟨rfl, rfl⟩ := hd
    rw [dir_install_self] at h
    exact .inl ⟨rfl, rfl, (Option.some.inj h).symm⟩
  · rw [dir_install_of_ne (by tauto)] at h
    exact .inr h

/-- **An empty table changes no map.** -/
theorem lookup_install (hnone : t.dir d i = none) (hfresh : t.Unused tbl (tbl p)) :
    (t.install tbl d i p).lookup tbl d' i' j' = t.lookup tbl d' i' j' := by
  by_cases h : d' = d ∧ i' = i
  · obtain ⟨rfl, rfl⟩ := h
    rw [lookup_none hnone, lookup_some dir_install_self, tab_install_self]
    rfl
  · refine lookup_congr (dir_install_of_ne (by tauto)) fun q hq => ?_
    rw [tab_install_of_ne (hfresh d' i' q hq)]

theorem Separate.install (h : t.Separate tbl shared) (hfresh : t.Unused tbl (tbl p)) :
    (t.install tbl d i p).Separate tbl shared := by
  intro d1 i1 p1 d2 i2 p2 h1 h2 htbl
  rcases dir_install_cases h1 with ⟨rfl, rfl, rfl⟩ | hold1 <;>
    rcases dir_install_cases h2 with ⟨rfl, rfl, rfl⟩ | hold2
  · exact ⟨rfl, .inl rfl⟩
  · exact absurd htbl.symm (hfresh d2 i2 p2 hold2)
  · exact absurd htbl (hfresh d1 i1 p1 hold1)
  · exact h d1 i1 p1 d2 i2 p2 hold1 hold2 htbl

end

section
variable [DecidableEq F] [DecidableEq J]

theorem tab_write_self {f : F} : (t.write f j e).tab f j = some e := by
  rw [write]
  simp

theorem tab_write_of_ne {f f' : F} (h : f' ≠ f ∨ j' ≠ j) :
    (t.write f j e).tab f' j' = t.tab f' j' := by
  rw [write]
  by_cases hf : f' = f
  · subst hf
    simp [update_of_ne (h.resolve_left (fun hne => hne rfl))]
  · simp [hf]

/-- **A leaf that is written is found** in every directory that names the table. -/
theorem lookup_write_self {f : F} (hp : t.dir d i = some p) (hf : tbl p = f) :
    (t.write f j e).lookup tbl d i j = some (p, e) := by
  rw [lookup_some (t := t.write f j e) hp, hf, tab_write_self]
  rfl

/-- **A leaf that is written is found nowhere else**, except at the same place of a directory that
shares the table. -/
theorem lookup_write_of_ne (h : t.Separate tbl shared) (hp : t.dir d i = some p)
    (hne : i' ≠ i ∨ j' ≠ j ∨ (d' ≠ d ∧ ¬ shared i)) :
    (t.write (tbl p) j e).lookup tbl d' i' j' = t.lookup tbl d' i' j' := by
  refine lookup_congr rfl fun q hq => tab_write_of_ne ?_
  by_contra hcon
  obtain ⟨htbl, rfl⟩ : tbl q = tbl p ∧ j' = j := by tauto
  obtain ⟨rfl, hd⟩ := h d i p d' i' q hp hq htbl.symm
  rcases hne with hi | hj | ⟨hd', hs⟩
  · exact hi rfl
  · exact hj rfl
  · rcases hd with rfl | hd
    · exact hd' rfl
    · exact hs hd

end

section
variable [DecidableEq D] [DecidablePred shared]

theorem dir_copy_of_ne (h : d' ≠ d) : (t.copy shared d₀ d).dir d' = t.dir d' :=
  update_of_ne h ..

theorem dir_copy_self : (t.copy shared d₀ d).dir d i = if shared i then t.dir d₀ i else none := by
  rw [copy]
  simp

theorem Separate.copy (h : t.Separate tbl shared) :
    (t.copy shared d₀ d).Separate tbl shared := by
  have hfrom : ∀ d1 i1 p1, (t.copy shared d₀ d).dir d1 i1 = some p1 →
      t.dir d1 i1 = some p1 ∨ (d1 = d ∧ shared i1 ∧ t.dir d₀ i1 = some p1) := by
    intro d1 i1 p1 h1
    by_cases hd1 : d1 = d
    · subst hd1
      rw [dir_copy_self] at h1
      by_cases hs : shared i1
      · rw [if_pos hs] at h1
        exact .inr ⟨rfl, hs, h1⟩
      · rw [if_neg hs] at h1
        exact nomatch h1
    · rw [dir_copy_of_ne hd1] at h1
      exact .inl h1
  intro d1 i1 p1 d2 i2 p2 h1 h2 htbl
  rcases hfrom d1 i1 p1 h1 with hold1 | ⟨rfl, hs1, hold1⟩ <;>
    rcases hfrom d2 i2 p2 h2 with hold2 | ⟨rfl, hs2, hold2⟩
  · exact h d1 i1 p1 d2 i2 p2 hold1 hold2 htbl
  · obtain ⟨rfl, -⟩ := h _ _ _ _ _ _ hold1 hold2 htbl
    exact ⟨rfl, .inr hs2⟩
  · obtain ⟨rfl, -⟩ := h _ _ _ _ _ _ hold1 hold2 htbl
    exact ⟨rfl, .inr hs1⟩
  · obtain ⟨rfl, -⟩ := h _ _ _ _ _ _ hold1 hold2 htbl
    exact ⟨rfl, .inl rfl⟩

end

section
variable {ds : D → Prop} [DecidablePred ds]

theorem dir_restrict (h : ds d) : (t.restrict ds).dir d i = t.dir d i := if_pos h

theorem dir_restrict_of_not (h : ¬ ds d) : (t.restrict ds).dir d i = none := if_neg h

theorem dir_of_restrict (h : (t.restrict ds).dir d i = some p) : t.dir d i = some p := by
  by_cases hd : ds d
  · rwa [dir_restrict hd] at h
  · rw [dir_restrict_of_not hd] at h
    exact nomatch h

theorem mem_of_restrict (h : (t.restrict ds).dir d i = some p) : ds d := by
  by_contra hd
  rw [dir_restrict_of_not hd] at h
  exact nomatch h

theorem Separate.restrict [DecidableEq D] {a b : D} (h : t.Separate tbl shared) :
    (t.restrict fun d => d = a ∨ d = b).Separate tbl (t.Shares tbl a b) := by
  intro d1 i1 p1 d2 i2 p2 h1 h2 htbl
  have hold1 := dir_of_restrict h1
  have hold2 := dir_of_restrict h2
  obtain ⟨rfl, -⟩ := h d1 i1 p1 d2 i2 p2 hold1 hold2 htbl
  refine ⟨rfl, ?_⟩
  rcases mem_of_restrict h1 with rfl | rfl <;> rcases mem_of_restrict h2 with rfl | rfl
  · exact .inl rfl
  · exact .inr ⟨p1, p2, hold1, hold2, htbl⟩
  · exact .inr ⟨p2, p1, hold2, hold1, htbl.symm⟩
  · exact .inl rfl

end

end TwoLevel
