import Mathlib.Tactic.Common

/-!
# Maximal runs

Positions `0, …, len - 1`, some of which are separators.  A *run* is a nonempty interval without
separators that cannot be made longer.  `SplitsFrom sep len pos ws` says that `ws` is the list of
all runs that begin at `pos` or later, in order, each as its first position and its length; being
sorted, the list is determined by its members.

A scanner goes through the positions from left to right, and finds the runs one by one:

* `SplitsFrom.nil`, `SplitsFrom.skip` and `SplitsFrom.cons` say what each of its steps does to the
  list, and what the scanner needs to know for this is that it is at an edge (`Edge`);
* `exists_stop` is the inner loop, which stops at the first position that is not of its kind;
* `exists_splitsFrom` says that there always is such a list.
-/

/-- A run of length `n` from `i` on. -/
structure MaxRun (sep : Nat → Prop) (len i n : Nat) : Prop where
  pos : 0 < n
  fits : i + n ≤ len
  inside : ∀ k, i ≤ k → k < i + n → ¬ sep k
  left : i = 0 ∨ sep (i - 1)
  right : i + n = len ∨ sep (i + n)

/-- The runs from `pos` on, in order. -/
structure SplitsFrom (sep : Nat → Prop) (len pos : Nat) (ws : List (Nat × Nat)) : Prop where
  sorted : ws.Pairwise fun u v => u.1 + u.2 < v.1
  mem_iff : ∀ i n, (i, n) ∈ ws ↔ pos ≤ i ∧ MaxRun sep len i n

/-- No run goes on across `pos`. -/
def Edge (sep : Nat → Prop) (len pos : Nat) : Prop :=
  pos = 0 ∨ sep (pos - 1) ∨ pos = len ∨ sep pos

variable {sep : Nat → Prop} {len pos e i n : Nat} {ws : List (Nat × Nat)}

theorem MaxRun.edge (h : MaxRun sep len i n) : Edge sep len (i + n) :=
  h.right.elim (fun heq => .inr (.inr (.inl heq))) fun hsep => .inr (.inr (.inr hsep))

theorem MaxRun.unique {n' : Nat} (h : MaxRun sep len i n) (h' : MaxRun sep len i n') : n = n' := by
  have hle : ∀ {a b : Nat}, MaxRun sep len i a → MaxRun sep len i b → ¬ a < b := by
    intro a b ha hb hlt
    have hfits := hb.fits
    rcases ha.right with heq | hsep
    · omega
    · exact hb.inside (i + a) (by omega) (by omega) hsep
  exact Nat.le_antisymm (Nat.not_lt.1 (hle h' h)) (Nat.not_lt.1 (hle h h'))

theorem SplitsFrom.nil (hpos : len ≤ pos) : SplitsFrom sep len pos [] where
  sorted := .nil
  mem_iff := by
    intro i n
    refine iff_of_false (by simp) ?_
    rintro ⟨hle, hrun⟩
    have := hrun.pos
    have := hrun.fits
    omega

theorem SplitsFrom.skip (hle : pos ≤ e) (hsep : ∀ k, pos ≤ k → k < e → sep k)
    (h : SplitsFrom sep len e ws) : SplitsFrom sep len pos ws where
  sorted := h.sorted
  mem_iff := by
    intro i n
    rw [h.mem_iff]
    constructor
    · rintro ⟨hi, hrun⟩
      exact ⟨Nat.le_trans hle hi, hrun⟩
    · rintro ⟨hi, hrun⟩
      refine ⟨Nat.not_lt.1 fun hlt => ?_, hrun⟩
      have := hrun.pos
      exact hrun.inside i (Nat.le_refl i) (by omega) (hsep i hi hlt)

theorem SplitsFrom.cons (hrun : MaxRun sep len i n) (h : SplitsFrom sep len (i + n) ws) :
    SplitsFrom sep len i ((i, n) :: ws) where
  sorted := by
    refine List.pairwise_cons.2 ⟨?_, h.sorted⟩
    rintro ⟨j, k⟩ hmem
    obtain ⟨hj, hrun'⟩ := (h.mem_iff j k).1 hmem
    refine Nat.lt_of_le_of_ne hj ?_
    rintro rfl
    have := hrun'.pos
    have := hrun'.fits
    rcases hrun.right with heq | hsep
    · omega
    · exact hrun'.inside (i + n) (Nat.le_refl _) (by omega) hsep
  mem_iff := by
    intro j k
    rw [List.mem_cons, h.mem_iff, Prod.mk.injEq]
    constructor
    · rintro (⟨rfl, rfl⟩ | ⟨hj, hrun'⟩)
      · exact ⟨Nat.le_refl j, hrun⟩
      · exact ⟨by omega, hrun'⟩
    · rintro ⟨hj, hrun'⟩
      rcases Nat.eq_or_lt_of_le hj with rfl | hlt
      · exact .inl ⟨rfl, hrun'.unique hrun⟩
      · refine .inr ⟨Nat.not_lt.1 fun hin => ?_, hrun'⟩
        -- a run that begins inside this one would have a separator inside it
        rcases hrun'.left with rfl | hsep
        · omega
        · exact hrun.inside (j - 1) (by omega) (by omega) hsep

/-- The first position from `pos` on that does not have a property, or the end. -/
theorem exists_stop (q : Nat → Prop) (hpos : pos ≤ len) :
    ∃ e, pos ≤ e ∧ e ≤ len ∧ (∀ k, pos ≤ k → k < e → q k) ∧ (e = len ∨ ¬ q e) := by
  induction hd : len - pos generalizing pos with
  | zero => exact ⟨pos, Nat.le_refl pos, hpos, fun k _ _ => by omega, .inl (by omega)⟩
  | succ d ih =>
    by_cases hq : q pos
    · obtain ⟨e, hle, hlen, hall, hstop⟩ := ih (show pos + 1 ≤ len by omega) (by omega)
      refine ⟨e, by omega, hlen, fun k hk hke => ?_, hstop⟩
      rcases Nat.eq_or_lt_of_le hk with rfl | hlt
      · exact hq
      · exact hall k hlt hke
    · exact ⟨pos, Nat.le_refl pos, hpos, fun k _ _ => by omega, .inr hq⟩

/-- Behind the separators from an edge on there is the end or the left end of a run. -/
theorem Edge.left_of_skip (hedge : Edge sep len pos) (hle : pos ≤ e)
    (hsep : ∀ k, pos ≤ k → k < e → sep k) (hlt : e < len) (hstop : ¬ sep e) :
    e = 0 ∨ sep (e - 1) := by
  rcases Nat.eq_or_lt_of_le hle with rfl | hpos
  · rcases hedge with h | h | h | h
    · exact .inl h
    · exact .inr h
    · omega
    · exact absurd h hstop
  · exact .inr (hsep (e - 1) (by omega) (by omega))

theorem exists_maxRun (hlt : i < len) (hleft : i = 0 ∨ sep (i - 1)) (hin : ¬ sep i) :
    ∃ n, MaxRun sep len i n := by
  obtain ⟨e, hle, hlen, hall, hstop⟩ := exists_stop (fun k => ¬ sep k) (Nat.le_of_lt hlt)
  have hne : i ≠ e := by
    intro heq
    rw [← heq] at hstop
    exact hstop.elim (Nat.ne_of_lt hlt) fun h => h hin
  obtain ⟨n, rfl⟩ := Nat.exists_eq_add_of_le hle
  exact ⟨n, by omega, hlen, hall, hleft, hstop.imp_right Classical.not_not.1⟩

/-- **Every line has its list of runs.** -/
theorem exists_splitsFrom (hpos : pos ≤ len) (hedge : Edge sep len pos) :
    ∃ ws, SplitsFrom sep len pos ws := by
  induction hd : len - pos using Nat.strongRecOn generalizing pos with
  | _ d ih =>
    obtain ⟨e, hle, hlen, hall, hstop⟩ := exists_stop sep hpos
    rcases Nat.eq_or_lt_of_le hlen with rfl | hlt
    · exact ⟨[], (SplitsFrom.nil (Nat.le_refl e)).skip hle hall⟩
    · have hin : ¬ sep e := hstop.resolve_left (Nat.ne_of_lt hlt)
      obtain ⟨n, hrun⟩ := exists_maxRun hlt (hedge.left_of_skip hle hall hlt hin) hin
      have hn := hrun.pos
      have hfits := hrun.fits
      obtain ⟨ws, hws⟩ := ih (len - (e + n)) (by omega) hfits hrun.edge rfl
      exact ⟨_, (hws.cons hrun).skip hle hall⟩
