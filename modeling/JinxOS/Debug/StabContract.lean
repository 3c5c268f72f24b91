import JinxOS.Debug.Stab

/-!
# What the search in the debug table returns

The comment in front of `stab_binsearch` says what it is to return: the entry that contains the
address, and where it ends (`Contract`).  `MeetsContract` says when it does.

At the end of the loop either the window is empty, and `StabInv` says what is in front of it and
behind it, or the address has become 0 at an entry with the largest value.  Each case is compared
with the contract on its own.
-/

namespace JinxOS

/-! ## The contract -/

/-- Some entry of the region has a value up to the address. -/
def HasUpTo (v : Int → Option Nat) (left right : Int) (addr : Nat) : Prop :=
  ∃ i x, left ≤ i ∧ i ≤ right ∧ v i = some x ∧ x ≤ addr

/-- The last such entry. -/
def LastUpTo (v : Int → Option Nat) (left right : Int) (addr : Nat) (e : Int) : Prop :=
  left ≤ e ∧ e ≤ right ∧ (∃ x, v e = some x ∧ x ≤ addr) ∧
    ∀ i x, e < i → i ≤ right → v i = some x → addr < x

/-- The index just before the entry that follows `e`, or the right bound if there is none. -/
def EndsAt (v : Int → Option Nat) (right e rr : Int) : Prop :=
  (rr = right ∧ ∀ i, e < i → i ≤ right → v i = none) ∨
    (e ≤ rr ∧ rr < right ∧ (∃ x, v (rr + 1) = some x) ∧ ∀ i, e < i → i ≤ rr → v i = none)

/-- What `stab_binsearch` is to return in `*region_left` and `*region_right`. -/
structure Contract (v : Int → Option Nat) (left right : Int) (addr : Nat) (rl rr : Int) : Prop where
  found : HasUpTo v left right addr → LastUpTo v left right addr rl ∧ EndsAt v right rl rr
  notFound : ¬ HasUpTo v left right addr → rl > rr

/-- When it does: there is no entry, or the last one up to the address is below it, or it is equal
and the address can be increased without meeting another entry. -/
def MeetsContract (v : Int → Option Nat) (left right : Int) (addr : Nat) : Prop :=
  (∀ i, left ≤ i → i ≤ right → v i = none) ∨
    ∃ e x, LastUpTo v left right addr e ∧ v e = some x ∧
      (x < addr ∨ (addr + 1 < 2 ^ 32 ∧
        ∀ q, left ≤ q → q ≤ right → v q = some (addr + 1) →
          MetFirst v e q left right ∨ (addr + 2 = 2 ^ 32 ∧ q = e + 1)))

section
variable {v : Int → Option Nat} {left right : Int} {a : Nat} {s : StabSearch} {e rl m : Int}

theorem LastUpTo.unique {e' : Int} (h : LastUpTo v left right a e)
    (h' : LastUpTo v left right a e') : e = e' := by
  obtain ⟨-, her, ⟨x, hx, hxa⟩, hafter⟩ := h
  obtain ⟨-, her', ⟨x', hx', hxa'⟩, hafter'⟩ := h'
  rcases Int.lt_trichotomy e e' with hlt | heq | hgt
  · exact absurd (hafter e' x' hlt her' hx') (Nat.not_lt.2 hxa')
  · exact heq
  · exact absurd (hafter' e x hgt her hx) (Nat.not_lt.2 hxa)

theorem exists_lastUpTo (h : HasUpTo v left right a) : ∃ e, LastUpTo v left right a e := by
  obtain ⟨i, x, hli, hir, hx, hxa⟩ := h
  -- on the distance to the right bound
  induction hn : (right - i).toNat using Nat.strongRecOn generalizing i x with
  | ind n ih =>
    by_cases hlast : ∀ j y, i < j → j ≤ right → v j = some y → a < y
    · exact ⟨i, hli, hir, ⟨x, hx, hxa⟩, hlast⟩
    · push Not at hlast
      obtain ⟨j, y, hij, hjr, hy, hya⟩ := hlast
      exact ih (right - j).toNat (by omega) j y (by omega) hjr hy hya rfl

theorem GoesBack.le {b m' : Int} (h : GoesBack v b m m') : m' ≤ m := by
  rcases h with ⟨-, rfl⟩ | ⟨hle, -, rfl⟩ | ⟨-, hle, -⟩ <;> omega

/-- At the end of the search, `*region_left` goes back to the last entry of the window. -/
theorem StabInv.lastIn (hi : StabInv v left right a s)
    (hback : GoesBack v (s.regionLeft + 1) s.r rl) {i : Int} {x : Nat} (hli : left ≤ i)
    (hir : i ≤ s.r) (hx : v i = some x) : LastIn v left s.r rl := by
  rcases hback with ⟨hlt, rfl⟩ | ⟨hle, hnone, rfl⟩ | ⟨hle, hle', hsome, hnone⟩
  · rcases hi.start with hstart | ⟨h1, -, h3, y, hy, -⟩
    · obtain rfl : i = s.r := by omega
      exact ⟨hli, Int.le_refl _, ⟨x, hx⟩, fun j hj hj' => by omega⟩
    · obtain heq : s.regionLeft = s.r := by omega
      exact ⟨by omega, Int.le_refl _, ⟨y, heq ▸ hy⟩, fun j hj hj' => by omega⟩
  · have hrl : s.regionLeft + 1 - 1 = s.regionLeft := by omega
    rw [hrl]
    have hafter : ∀ j, s.regionLeft < j → j ≤ s.r → v j = none := fun j hj => hnone j (by omega)
    rcases hi.start with hstart | ⟨h1, -, h3, y, hy, -⟩
    · have hil : i = s.regionLeft := by
        by_contra hne
        rw [hafter i (by omega) hir] at hx
        cases hx
      exact ⟨by omega, by omega, ⟨x, hil ▸ hx⟩, hafter⟩
    · exact ⟨h1, h3, ⟨y, hy⟩, hafter⟩
  · refine ⟨?_, hle', hsome, hnone⟩
    rcases hi.start with hstart | ⟨h1, -⟩ <;> omega

/-- **The loop has ended with an empty window.** -/
theorem StabInv.contract_iff (hv : Increasing v left right) (hi : StabInv v left right a s)
    (hend : s.r < s.l) (hany : s.anyMatches = true) (hback : GoesBack v (s.regionLeft + 1) s.r rl) :
    Contract v left right a rl s.r ↔ MeetsContract v left right a := by
  have hright := hi.le_right
  have hbelow : ∀ i x, left ≤ i → i ≤ s.r → v i = some x → x < s.addr :=
    fun i x hli hir hx => hi.below i x hli (by omega) hx
  by_cases hupto : HasUpTo v left right a
  · obtain ⟨e, he⟩ := exists_lastUpTo hupto
    have he' := he
    obtain ⟨hle, her, ⟨x, hx, hxa⟩, hafter⟩ := he'
    have hes : e ≤ s.r := by
      by_contra hlt
      exact absurd (hi.above e x (by omega) her hx) (by omega)
    obtain ⟨-, hrls, ⟨y, hy⟩, hnone⟩ := hi.lastIn hback hle hes hx
    have herl : e ≤ rl := by
      by_contra hlt
      rw [hnone e (by omega) hes] at hx
      cases hx
    have hcontract : Contract v left right a rl s.r ↔ rl = e := by
      constructor
      · exact fun hc => (hc.found hupto).1.unique he
      · rintro rfl
        refine ⟨fun _ => ⟨he, ?_⟩, fun hno => absurd hupto hno⟩
        rcases hi.next with hr | ⟨hr, hnext⟩
        · exact .inl ⟨hr, fun i hi hir => hnone i hi (by omega)⟩
        · exact .inr ⟨hrls, hr, hnext, hnone⟩
    have hbeyond : rl ≠ e → a < y ∧ y < s.addr := fun hne =>
      ⟨hafter rl y (by omega) (by omega) hy, hbelow rl y (by omega) hrls hy⟩
    rw [hcontract]
    rcases Nat.lt_or_eq_of_le hxa with hlt | rfl
    · refine iff_of_true ?_ (.inr ⟨e, x, he, hx, .inl hlt⟩)
      by_contra hne
      obtain ⟨i, hli, -, hir, hia⟩ := hi.matched a (Nat.le_refl a) (by omega)
      exact absurd (hafter i a (hv.lt_of_lt her hli hx hia hlt) (by omega) hia) (Nat.lt_irrefl a)
    · have haddr := hi.addr_lt
      have hxs := hbelow e x hle hes hx
      constructor
      · rintro rfl
        refine .inr ⟨rl, x, he, hx, .inr ⟨by omega, fun q hlq hqr hq => ?_⟩⟩
        have heq : rl < q := hv.lt_of_lt her hlq hx hq (Nat.lt_succ_self x)
        rcases hi.order rl q hle heq hqr hx hq with ⟨-, h1, h2, -⟩ | ⟨-, hmet⟩ | ⟨-, hqs, -⟩
        · omega
        · exact .inl hmet
        · rw [hnone q heq hqs] at hq
          cases hq
      · intro hmeets
        by_contra hne
        obtain ⟨q, hlq, -, hqs, hq⟩ := hi.matched (x + 1) (by omega) (by omega)
        rcases hmeets with hno | ⟨e', x', he', hx', hcond⟩
        · rw [hno e hle her] at hx
          cases hx
        · obtain rfl := he.unique he'
          cases hx.symm.trans hx'
          rcases hcond with hlt | ⟨-, hcond⟩
          · exact absurd hlt (Nat.lt_irrefl x)
          · have heq : e < q := hv.lt_of_lt her hlq hx hq (Nat.lt_succ_self x)
            rcases hcond q hlq (by omega) hq with hmet | ⟨hmax, -⟩
            · rcases hi.order e q hle heq (by omega) hx hq with
                ⟨-, h1, h2, -⟩ | ⟨h1, -⟩ | ⟨-, -, hno⟩
              · omega
              · omega
              · exact hno hmet
            · omega
  · refine iff_of_false (fun hc => ?_) ?_
    · have := hback.le
      have := hc.notFound hupto
      omega
    · rintro (hno | ⟨e, x, ⟨hle, her, ⟨y, hy, hya⟩, -⟩, -⟩)
      · obtain ⟨i, x, hli, hir, hx⟩ := hi.seen hany
        rw [hno i hli hir] at hx
        cases hx
      · exact hupto ⟨e, y, hle, her, hy, hya⟩

/-- **The address has become 0** at the entry at `m`. -/
theorem StabInv.contract_iff_wrap (hv : Increasing v left right) (hi : StabInv v left right a s)
    (haddr : s.addr = 2 ^ 32 - 1) (hlm : s.l ≤ m) (hmr : m ≤ s.r) (hm : v m = some s.addr) :
    Contract v left right a (m - 1) (m - 1) ↔ MeetsContract v left right a := by
  have hleft := hi.left_le
  have hright := hi.le_right
  -- the entry that is looked for
  obtain ⟨e, hle, hem, hea⟩ : ∃ e, left ≤ e ∧ e ≤ m ∧ v e = some a := by
    rcases Nat.lt_or_eq_of_le hi.addr_le with hlt | heq
    · obtain ⟨e, hle, hel, -, hea⟩ := hi.matched a (Nat.le_refl a) hlt
      exact ⟨e, hle, by omega, hea⟩
    · exact ⟨m, by omega, Int.le_refl m, heq ▸ hm⟩
  have he : LastUpTo v left right a e :=
    ⟨hle, by omega, ⟨a, hea, Nat.le_refl a⟩, fun i x hei hir hx => hv e i a x hle hei hir hea hx⟩
  have hupto : HasUpTo v left right a := ⟨e, a, hle, by omega, hea, Nat.le_refl a⟩
  have hcontract : Contract v left right a (m - 1) (m - 1) ↔ m = e + 1 := by
    constructor
    · intro hc
      have := (hc.found hupto).1.unique he
      omega
    · rintro rfl
      rw [Int.add_sub_cancel]
      refine ⟨fun _ => ⟨he, .inr ⟨Int.le_refl e, by omega, ⟨_, hm⟩, fun i hi hie => by omega⟩⟩,
        fun hno => absurd hupto hno⟩
  rw [hcontract]
  constructor
  · rintro rfl
    have hlt : a < s.addr := hv e (e + 1) a s.addr hle (by omega) (by omega) hea hm
    refine .inr ⟨e, a, he, hea, .inr ⟨by omega, fun q hlq hqr hq => .inr ?_⟩⟩
    have heq : e < q := hv.lt_of_lt (by omega) hlq hea hq (Nat.lt_succ_self a)
    have hle' := hv.le_of_le (by omega) (by omega) hqr hm hq
    have hnext : s.addr = a + 1 := by omega
    exact ⟨by omega, hv.eq_of_eq hlq hqr (by omega) (by omega) hq (hnext ▸ hm)⟩
  · rintro (hno | ⟨e', x', he', hx', hcond⟩)
    · rw [hno e hle (by omega)] at hea
      cases hea
    · obtain rfl := he.unique he'
      cases hea.symm.trans hx'
      rcases hcond with hlt | ⟨hwrap, hcond⟩
      · exact absurd hlt (Nat.lt_irrefl a)
      · have hle' := hi.addr_le
        -- the entry for the next address, which the search has come to after the one for `a`
        obtain ⟨q, hlq, hqr, hqs, hq⟩ :
            ∃ q, left ≤ q ∧ q ≤ right ∧ q ≤ s.r ∧ v q = some (a + 1) := by
          rcases Nat.lt_or_eq_of_le (show a + 1 ≤ s.addr by omega) with hlt' | heq
          · obtain ⟨q, hlq, -, hqs, hq⟩ := hi.matched (a + 1) (by omega) hlt'
            exact ⟨q, hlq, by omega, hqs, hq⟩
          · exact ⟨m, by omega, by omega, hmr, heq ▸ hm⟩
        have heq : e < q := hv.lt_of_lt (by omega) hlq hea hq (Nat.lt_succ_self a)
        rcases hcond q hlq hqr hq with hmet | ⟨hmax, rfl⟩
        · rcases hi.order e q hle heq hqr hea hq with ⟨h1, -⟩ | ⟨h1, -⟩ | ⟨-, -, hno⟩
          · omega
          · omega
          · exact absurd hmet hno
        · refine hv.eq_of_eq (by omega) (by omega) hlq hqr hm ?_
          rw [hq, show a + 1 = s.addr by omega]

end

/-! ## All tables -/

/-- **The search meets its contract exactly if** there is no entry of the type, or the last one up
to the address is below it, or it is equal and the address can be increased without meeting another
entry. It always returns. -/
theorem stabBinsearch_contract_iff {stabs : List Stab} {type left right : Int}
    (hreg : StabRegion stabs type left right) {addr : Nat} (haddr : addr < 2 ^ 32) :
    ∃ rl rr, stabBinsearch stabs type left right addr = .ok (rl, rr) ∧
      (Contract (stabValue stabs type) left right addr rl rr ↔
        MeetsContract (stabValue stabs type) left right addr) := by
  have hfits := hreg.fits
  have hnonneg := hreg.left_nonneg
  have hleft := hreg.left_le
  have hlen := hreg.right_lt
  have hinit := stabInv_init (v := stabValue stabs type) left right haddr
  have hfuel :
      stabLeft (stabValue stabs type) ⟨left, right, left, right, false, addr⟩ < loopFuel := by
    have := (stabLeft_bounds (stabValue stabs type) ⟨left, right, left, right, false, addr⟩).2
    dsimp only at this
    rw [loopFuel]
    omega
  have hinside : ∀ b l : Int, decide (l > b) = true ↔ b + 1 ≤ l :=
    fun b l => decide_eq_true_iff.trans Int.lt_iff_add_one_le
  obtain ⟨s, hrun, hout⟩ := searchLoop_outcome hreg loopFuel _ hinit hfuel
  rw [stabBinsearch, hrun, ok_bind]
  rcases hout with ⟨hi, hend⟩ | ⟨s₀, m, hi, haddr₀, hlm, hmr, hm, hany, hrl, hrr⟩
  · cases hany : s.anyMatches with
    | false =>
      obtain ⟨hrl, hnone⟩ := hi.unseen hany
      have hempty : ∀ i, left ≤ i → i ≤ right → stabValue stabs type i = none :=
        fun i hli hir => hnone i hli hir (by omega)
      refine ⟨_, _, rfl, iff_of_true ⟨?_, fun _ => ?_⟩ (.inl hempty)⟩
      · rintro ⟨i, x, hli, hir, hx, -⟩
        rw [hempty i hli hir] at hx
        cases hx
      · rw [hrl, toInt_eq]
        omega
    | true =>
      have hstart : left ≤ s.regionLeft := by
        rcases hi.start with hstart | ⟨hstart, -⟩ <;> omega
      have hright := hi.le_right
      obtain ⟨rl, hscan, hback⟩ := scanBack_ok stabs type (b := s.regionLeft + 1) (by omega)
        (hinside s.regionLeft) loopFuel s.r (by omega) (by omega) (by rw [loopFuel]; omega)
      refine ⟨rl, s.r, ?_, hi.contract_iff hreg.increasing hend hany hback⟩
      rw [hi.regionRight, hscan]
      rfl
  · have hleft₀ := hi.left_le
    have hright₀ := hi.le_right
    obtain ⟨l, hscan, hback⟩ := scanBack_ok stabs type (b := m + 1) (by omega) (hinside m) loopFuel
      (m - 1) (by omega) (by omega) (by rw [loopFuel]; omega)
    have hl : l = m - 1 := by
      rcases hback with ⟨-, h⟩ | ⟨h, -⟩ | ⟨h₁, h₂, -⟩ <;> omega
    refine ⟨m - 1, m - 1, ?_, hi.contract_iff_wrap hreg.increasing haddr₀ hlm hmr hm⟩
    rw [hany, hrl, hrr, hscan, hl]
    rfl

/-- `N_SO` entries with an `N_FUN` entry in between. -/
def soTable : List Stab := [⟨0x64, 16, by decide⟩, ⟨0x24, 18, by decide⟩, ⟨0x64, 32, by decide⟩]

/-- An address in the first of them. -/
theorem stabBinsearch_contract_iff_three : ∃ rl rr,
    stabBinsearch soTable 0x64 0 2 20 = .ok (rl, rr) ∧
      Contract (stabValue soTable 0x64) 0 2 20 rl rr := by
  have hvalue : ∀ i x, stabValue soTable 0x64 i = some x → (i = 0 ∧ x = 16) ∨ (i = 2 ∧ x = 32) := by
    intro i x hx
    rw [stabValue] at hx
    split at hx
    · cases hx
    · obtain ⟨n, rfl⟩ := Int.eq_ofNat_of_zero_le (show 0 ≤ i by omega)
      rw [Int.toNat_natCast] at hx
      rcases n with _ | _ | _ | n <;> simp [soTable] at hx <;> simp [hx]
  have hreg : StabRegion soTable 0x64 0 2 := by
    refine ⟨by decide, by decide, by decide, by decide, fun i j x y _ hij _ hx hy => ?_⟩
    have := hvalue i x hx
    have := hvalue j y hy
    omega
  obtain ⟨rl, rr, hrun, hiff⟩ := stabBinsearch_contract_iff hreg (show 20 < 2 ^ 32 by decide)
  refine ⟨rl, rr, hrun, hiff.2 (.inr ⟨0, 16, ⟨by decide, by decide, ⟨16, rfl, by decide⟩, ?_⟩, rfl,
    .inl (by decide)⟩)⟩
  intro i x hi _ hx
  have := hvalue i x hx
  omega

/-- **Three tables for which the search does not meet its contract.**  In the first one there is an
entry for the next address: the second entry is returned for the address of the first one.  In the
second one the only entry is above the address, and a region is returned that is not empty.  In the
third one the address is the largest word: -1 is returned. -/
theorem not_contract_stab :
    (stabBinsearch [⟨0x64, 5, by decide⟩, ⟨0x64, 6, by decide⟩] 0x64 0 1 5 = .ok (1, 1) ∧
      ¬ Contract (stabValue [⟨0x64, 5, by decide⟩, ⟨0x64, 6, by decide⟩] 0x64) 0 1 5 1 1) ∧
    (stabBinsearch [⟨0x24, 0, by decide⟩, ⟨0x64, 6, by decide⟩] 0x64 0 1 5 = .ok (0, 0) ∧
      ¬ Contract (stabValue [⟨0x24, 0, by decide⟩, ⟨0x64, 6, by decide⟩] 0x64) 0 1 5 0 0) ∧
    (stabBinsearch [⟨0x64, 2 ^ 32 - 1, by decide⟩] 0x64 0 0 (2 ^ 32 - 1) = .ok (-1, -1) ∧
      ¬ Contract (stabValue [⟨0x64, 2 ^ 32 - 1, by decide⟩] 0x64) 0 0 (2 ^ 32 - 1) (-1) (-1)) := by
  refine ⟨⟨by decide +kernel, fun hc => ?_⟩, ⟨by decide +kernel, fun hc => ?_⟩, by decide +kernel,
    fun hc => ?_⟩
  · obtain ⟨⟨-, -, ⟨x, hx, hle⟩, -⟩, -⟩ := hc.found ⟨0, 5, by decide, by decide, rfl, by decide⟩
    obtain rfl : 6 = x := Option.some.inj hx
    exact absurd hle (by decide)
  · by_cases hupto : HasUpTo (stabValue [⟨0x24, 0, by decide⟩, ⟨0x64, 6, by decide⟩] 0x64) 0 1 5
    · obtain ⟨⟨-, -, ⟨x, hx, -⟩, -⟩, -⟩ := hc.found hupto
      cases hx
    · exact absurd (hc.notFound hupto) (by decide)
  · obtain ⟨⟨hle, -⟩, -⟩ := hc.found ⟨0, 2 ^ 32 - 1, by decide, by decide, rfl, by decide⟩
    exact absurd hle (by decide)

end JinxOS
