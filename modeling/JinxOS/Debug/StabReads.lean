import JinxOS.Debug.Stab

/-!
# Which entries the search reads

`stab_binsearch` is called with regions of the table whose ends come from the table itself, so that
nothing is known of the order of the entries when the table is damaged.  It still ends, and it stays
in its region.

The functions here list the indices that the functions of `JinxOS.Debug.Stab` read, in the order in
which they do.  That none is missing is `stabBinsearch_congr`: tables that agree at these indices
cannot be told apart.

* `Stepped.window` — the window only gets smaller, and so do the bounds that are noted;
* `stabBinsearch_in_bounds` — **the search ends and reads its region only**, in every table and for
  every address.
-/

namespace JinxOS

section
variable (stabs : List Stab) (type : Int)

/-- What is read after a part of the code that has returned. -/
def readsAfter {α : Type} (x : Except Fault α) (f : α → List Int) : List Int :=
  match x with
  | .ok a => f a
  | .error _ => []

/-- What `scanBack` reads. -/
def scanReads (inside : Int → Bool) : Nat → Int → List Int
  | 0, _ => []
  | fuel + 1, m =>
    if inside m then
      m :: readsAfter (stabAt stabs m) fun stab =>
        if (stab.nType.toNat : Int) ≠ type then scanReads inside fuel (toInt (m - 1)) else []
    else []

/-- What the body of the loop reads. -/
def stepReads (s : StabSearch) : List Int :=
  let trueM := (toInt (s.l + s.r)).tdiv 2
  scanReads stabs type (fun m => decide (m ≥ s.l)) loopFuel trueM ++
    readsAfter (scanBack stabs type (fun m => decide (m ≥ s.l)) loopFuel trueM) fun m =>
      if m < s.l then [] else [m]

/-- What the loop reads. -/
def loopReads : Nat → StabSearch → List Int
  | 0, _ => []
  | fuel + 1, s =>
    if s.l ≤ s.r then
      stepReads stabs type s ++ readsAfter (searchStep stabs type s) (loopReads fuel)
    else []

/-- What `stab_binsearch` reads. -/
def binsearchReads (regionLeft regionRight : Int) (addr : Nat) : List Int :=
  let s := ⟨regionLeft, regionRight, regionLeft, regionRight, false, addr⟩
  loopReads stabs type loopFuel s ++ readsAfter (searchLoop stabs type loopFuel s) fun s =>
    if !s.anyMatches then []
    else scanReads stabs type (fun l => decide (l > s.regionLeft)) loopFuel s.regionRight

end

/-! ## Nothing else is read -/

section
variable {stabs stabs' : List Stab} {type : Int}

theorem scanBack_congr {inside : Int → Bool} (fuel : Nat) : ∀ {m : Int},
    (∀ i ∈ scanReads stabs type inside fuel m, stabAt stabs' i = stabAt stabs i) →
    scanBack stabs' type inside fuel m = scanBack stabs type inside fuel m := by
  induction fuel with
  | zero => exact fun _ => rfl
  | succ fuel ih =>
    intro m h
    rw [scanReads] at h
    rw [scanBack, scanBack]
    by_cases hin : inside m
    · rw [if_pos hin] at h
      rw [if_pos hin, if_pos hin, h m List.mem_cons_self]
      cases hat : stabAt stabs m with
      | error e => rfl
      | ok stab =>
        rw [hat, readsAfter] at h
        rw [ok_bind, ok_bind]
        by_cases htype : (stab.nType.toNat : Int) ≠ type
        · rw [if_pos htype] at h
          rw [if_pos htype, if_pos htype, ih fun i hi => h i (List.mem_cons_of_mem _ hi)]
        · rw [if_neg htype, if_neg htype]
    · rw [if_neg hin, if_neg hin]

theorem searchStep_congr {s : StabSearch}
    (h : ∀ i ∈ stepReads stabs type s, stabAt stabs' i = stabAt stabs i) :
    searchStep stabs' type s = searchStep stabs type s := by
  rw [stepReads] at h
  rw [searchStep, searchStep, scanBack_congr _ fun i hi => h i (List.mem_append_left _ hi)]
  cases hscan : scanBack stabs type (fun m => decide (m ≥ s.l)) loopFuel
      ((toInt (s.l + s.r)).tdiv 2) with
  | error e => rfl
  | ok m =>
    rw [hscan, readsAfter] at h
    rw [ok_bind, ok_bind]
    by_cases hlt : m < s.l
    · rw [if_pos hlt, if_pos hlt]
    · rw [if_neg hlt] at h
      rw [if_neg hlt, if_neg hlt, h m (by simp)]

theorem searchLoop_congr (fuel : Nat) : ∀ {s : StabSearch},
    (∀ i ∈ loopReads stabs type fuel s, stabAt stabs' i = stabAt stabs i) →
    searchLoop stabs' type fuel s = searchLoop stabs type fuel s := by
  induction fuel with
  | zero => exact fun _ => rfl
  | succ fuel ih =>
    intro s h
    rw [loopReads] at h
    rw [searchLoop, searchLoop]
    by_cases hle : s.l ≤ s.r
    · rw [if_pos hle] at h
      rw [if_pos hle, if_pos hle, searchStep_congr fun i hi => h i (List.mem_append_left _ hi)]
      cases hstep : searchStep stabs type s with
      | error e => rfl
      | ok s1 =>
        rw [hstep, readsAfter] at h
        exact ih fun i hi => h i (List.mem_append_right _ hi)
    · rw [if_neg hle, if_neg hle]

/-- **Tables that agree where the search reads** give the same result. -/
theorem stabBinsearch_congr {left right : Int} {addr : Nat}
    (h : ∀ i ∈ binsearchReads stabs type left right addr, stabAt stabs' i = stabAt stabs i) :
    stabBinsearch stabs' type left right addr = stabBinsearch stabs type left right addr := by
  rw [binsearchReads] at h
  rw [stabBinsearch, stabBinsearch, searchLoop_congr _ fun i hi => h i (List.mem_append_left _ hi)]
  cases hloop : searchLoop stabs type loopFuel ⟨left, right, left, right, false, addr⟩ with
  | error e => rw [error_bind, error_bind]
  | ok s =>
    rw [hloop, readsAfter] at h
    rw [ok_bind, ok_bind]
    cases hany : s.anyMatches with
    | false => rw [Bool.not_false, if_pos rfl, if_pos rfl]
    | true =>
      rw [hany, Bool.not_true, if_neg Bool.false_ne_true] at h
      rw [scanBack_congr _ fun i hi => h i (List.mem_append_right _ hi)]

end

/-! ## The reads are in the region -/

section
variable {stabs : List Stab} {type left right : Int} {s s' : StabSearch}

theorem scanReads_mem {inside : Int → Bool} {b : Int} (hb : 0 ≤ b)
    (hin : ∀ m, inside m = true ↔ b ≤ m) (fuel : Nat) :
    ∀ {m : Int}, m < 2 ^ 31 → ∀ i ∈ scanReads stabs type inside fuel m, b ≤ i ∧ i ≤ m := by
  induction fuel with
  | zero => exact fun _ i hi => absurd hi List.not_mem_nil
  | succ fuel ih =>
    intro m hm i hi
    rw [scanReads] at hi
    by_cases hbm : b ≤ m
    · rw [if_pos ((hin m).2 hbm), toInt_eq] at hi
      rcases List.mem_cons.1 hi with rfl | hi
      · exact ⟨hbm, Int.le_refl i⟩
      · cases hat : stabAt stabs m with
        | error e =>
          rw [hat] at hi
          exact absurd hi List.not_mem_nil
        | ok stab =>
          rw [hat, readsAfter] at hi
          split at hi
          · have := ih (by omega) i hi
            omega
          · exact absurd hi List.not_mem_nil
    · rw [if_neg fun h => hbm ((hin m).1 h)] at hi
      exact absurd hi List.not_mem_nil

theorem stepReads_mem (hl : 0 ≤ s.l) (hr : s.r < stabs.length) (hbig : s.r < 2 ^ 30)
    (hle : s.l ≤ s.r) : ∀ i ∈ stepReads stabs type s, s.l ≤ i ∧ i ≤ s.r := by
  have htrue : (toInt (s.l + s.r)).tdiv 2 = (s.l + s.r) / 2 := by
    rw [toInt_eq, Int.tdiv_eq_ediv_of_nonneg (by omega)]
  have hinside : ∀ m : Int, decide (m ≥ s.l) = true ↔ s.l ≤ m := fun _ => decide_eq_true_iff
  obtain ⟨m, hscan, hback⟩ := scanBack_ok stabs type hl hinside loopFuel
    ((s.l + s.r) / 2) (by omega) (by omega) (by rw [loopFuel]; omega)
  have hm : m ≤ (s.l + s.r) / 2 := by
    rcases hback with ⟨-, h⟩ | ⟨h, -, h'⟩ | ⟨-, h, -⟩ <;> omega
  intro i hi
  rw [stepReads, htrue, hscan] at hi
  rcases List.mem_append.1 hi with hi | hi
  · have := scanReads_mem hl hinside loopFuel (by omega) i hi
    omega
  · rw [readsAfter] at hi
    split at hi
    · exact absurd hi List.not_mem_nil
    · rw [List.mem_singleton.1 hi]
      omega

/-- **What an iteration does to the bounds.** -/
theorem Stepped.window {v : Int → Option Nat} (h : Stepped v s s') (hle : s.l ≤ s.r) :
    s.l ≤ s'.l ∧ s'.r ≤ s.r ∧ (s'.regionLeft = s.regionLeft ∨ s.l ≤ s'.regionLeft) ∧
      (s'.regionRight = s.regionRight ∨ s'.regionRight ≤ s.r) := by
  cases h with
  | skip h => exact ⟨by dsimp only; omega, Int.le_refl _, .inl rfl, .inl rfl⟩
  | below h hx hlt => exact ⟨by dsimp only; omega, Int.le_refl _, .inr h.1, .inl rfl⟩
  | @above m x h hx hlt =>
    have hmr : m - 1 ≤ s.r := by
      have := h.2.1
      omega
    exact ⟨Int.le_refl _, hmr, .inl rfl, .inr hmr⟩
  | equal h hx => exact ⟨h.1, Int.le_refl _, .inr h.1, .inl rfl⟩

theorem searchLoop_in_bounds (hleft : 0 ≤ left) (hright : right < stabs.length)
    (hbig : right < 2 ^ 30) (fuel : Nat) : ∀ {s : StabSearch}, left ≤ s.l → s.r ≤ right →
    left ≤ s.regionLeft → s.regionRight ≤ right → stabLeft (stabValue stabs type) s < fuel →
    ∃ s', searchLoop stabs type fuel s = .ok s' ∧ left ≤ s'.regionLeft ∧ s'.regionRight ≤ right ∧
      ∀ i ∈ loopReads stabs type fuel s, left ≤ i ∧ i ≤ right := by
  -- the induction is on the iterations that are left, which `stabLeft` bounds
  induction fuel with
  | zero => exact fun _ _ _ _ hfuel => absurd hfuel (Nat.not_lt_zero _)
  | succ fuel ih =>
    intro s hl hr hrl hrr hfuel
    rw [searchLoop, loopReads]
    by_cases hle : s.l ≤ s.r
    · obtain ⟨s1, hstep, hcases⟩ := searchStep_ok stabs type (by omega)
        (by omega) (by omega) hle
      obtain ⟨hl1, hr1, hrl1, hrr1⟩ := hcases.window hle
      have hleft1 := hcases.stabLeft_lt hle
      obtain ⟨s2, hrun, hrl2, hrr2, hreads⟩ :=
        ih (s := s1) (by omega) (by omega) (by omega) (by omega) (by omega)
      rw [if_pos hle, if_pos hle, hstep, ok_bind, readsAfter]
      refine ⟨s2, hrun, hrl2, hrr2, fun i hi => ?_⟩
      rcases List.mem_append.1 hi with hi | hi
      · have := stepReads_mem (by omega) (by omega) (by omega) hle i hi
        omega
      · exact hreads i hi
    · rw [if_neg hle, if_neg hle]
      exact ⟨s, rfl, hrl, hrr, fun i hi => absurd hi List.not_mem_nil⟩

end

/-- **The search ends in its region**, whatever is in the table and whatever address is looked for:
it returns, and each entry that the loop or the scan at the end reads is in the region. -/
theorem stabBinsearch_in_bounds (stabs : List Stab) (type : Int) {left right : Int} (addr : Nat)
    (hleft : 0 ≤ left) (hle : left ≤ right) (hright : right < stabs.length)
    (hbig : right < 2 ^ 30) :
    (∃ rl rr, stabBinsearch stabs type left right addr = .ok (rl, rr)) ∧
      ∀ i ∈ binsearchReads stabs type left right addr, left ≤ i ∧ i ≤ right := by
  have hfuel :
      stabLeft (stabValue stabs type) ⟨left, right, left, right, false, addr⟩ < loopFuel := by
    have := (stabLeft_bounds (stabValue stabs type) ⟨left, right, left, right, false, addr⟩).2
    dsimp only at this
    rw [loopFuel]
    omega
  obtain ⟨s, hrun, hrl, hrr, hreads⟩ := searchLoop_in_bounds hleft hright hbig loopFuel
    (Int.le_refl left) (Int.le_refl right) (Int.le_refl left) (Int.le_refl right) hfuel
  have hinside : ∀ l : Int, decide (l > s.regionLeft) = true ↔ s.regionLeft + 1 ≤ l :=
    fun l => decide_eq_true_iff.trans Int.lt_iff_add_one_le
  obtain ⟨l, hscan, -⟩ := scanBack_ok stabs type (b := s.regionLeft + 1) (by omega) hinside
    loopFuel s.regionRight (by omega) (by omega) (by rw [loopFuel]; omega)
  rw [stabBinsearch, binsearchReads, hrun, ok_bind, readsAfter]
  cases s.anyMatches with
  | false => exact ⟨⟨_, _, rfl⟩, fun i hi => (List.mem_append.1 hi).elim (hreads i) fun hi => by
      exact absurd hi List.not_mem_nil⟩
  | true =>
    refine ⟨⟨l, s.regionRight, by rw [hscan]; rfl⟩, fun i hi => ?_⟩
    rcases List.mem_append.1 hi with hi | hi
    · exact hreads i hi
    · have := scanReads_mem (by omega) hinside loopFuel (by omega) i hi
      omega

/-- A table that is not in order, and the largest address. -/
theorem stabBinsearch_in_bounds_wrap :
    (binsearchReads [⟨0x64, 2 ^ 32 - 1, by decide⟩, ⟨0x24, 7, by decide⟩, ⟨0x64, 3, by decide⟩]
      0x64 0 2 (2 ^ 32 - 1)).all fun i => 0 ≤ i ∧ i ≤ 2 :=
  List.all_eq_true.2 fun i hi => decide_eq_true ((stabBinsearch_in_bounds _ 0x64 (2 ^ 32 - 1)
    (by decide) (by decide) (by decide) (by decide)).2 i hi)

end JinxOS
