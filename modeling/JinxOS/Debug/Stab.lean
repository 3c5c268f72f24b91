import JinxOS.Cpu

/-!
# The search in the debug table

`stab_binsearch` of `debug/debug.c` halves a region of the table of `struct stab`s, of which only
the entries of one type count.  From the middle it goes back to an entry of the type, and compares
its value with the address.  If they are equal it notes the entry, adds 1 to the address, and goes
on, in order to find where the entry ends.

The contract is the comment in front of the function (`Contract`).  The search does not meet it in
three cases:

* all entries of the type are above the address: the region that is left is not empty;
* the address is the largest word and there is an entry for it: the address becomes 0;
* there are entries for the address and for the next one.  The second one is taken for the entry
  that is looked for, once the address has been increased.  Whether it has been depends on which of
  the two the search meets first (`MetFirst`).

`StabInv` is what the loop keeps.  Its field `matched` says that the address is only increased past
entries that are there, and `order` follows the search up to the point where one of the two entries
is met.
-/

namespace JinxOS

/-- `struct stab`, as far as the search reads it. -/
structure Stab where
  nType : UInt8
  nValue : Nat
  /-- It is a `uint32_t`. -/
  nValue_lt : nValue < 2 ^ 32

/-- What `stab_binsearch` keeps in its variables, and where its two pointers point to. -/
structure StabSearch where
  regionLeft : Int
  regionRight : Int
  l : Int
  r : Int
  anyMatches : Bool
  addr : Nat

section
variable (stabs : List Stab) (type : Int)

/-- `stabs[i]`. -/
def stabAt (i : Int) : Except Fault Stab :=
  if i < 0 then .error .nullDeref else deref stabs[i.toNat]?

/-- The two loops that go back to an entry of the type: `while (inside(m) && stabs[m].n_type !=
type) m--`. -/
def scanBack (inside : Int → Bool) : Nat → Int → Except Fault Int
  | 0, _ => .error .diverges
  | fuel + 1, m =>
    if inside m then do
      let stab ← stabAt stabs m
      if (stab.nType.toNat : Int) ≠ type then scanBack inside fuel (toInt (m - 1)) else .ok m
    else .ok m

/-- The body of the loop `while (l <= r)`. -/
def searchStep (s : StabSearch) : Except Fault StabSearch := do
  let trueM := (toInt (s.l + s.r)).tdiv 2
  let m ← scanBack stabs type (fun m => decide (m ≥ s.l)) loopFuel trueM
  if m < s.l then .ok { s with l := toInt (trueM + 1) }
  else do
    let stab ← stabAt stabs m
    if stab.nValue < s.addr then
      .ok { s with anyMatches := true, regionLeft := m, l := toInt (trueM + 1) }
    else if stab.nValue > s.addr then
      .ok { s with anyMatches := true, regionRight := toInt (m - 1), r := toInt (m - 1) }
    else .ok { s with anyMatches := true, regionLeft := m, l := m, addr := Word.add s.addr 1 }

/-- The loop. -/
def searchLoop : Nat → StabSearch → Except Fault StabSearch
  | 0, _ => .error .diverges
  | fuel + 1, s =>
    if s.l ≤ s.r then do
      let s ← searchStep stabs type s
      searchLoop fuel s
    else .ok s

/-- `stab_binsearch`: `*region_left` and `*region_right`. -/
def stabBinsearch (regionLeft regionRight : Int) (addr : Nat) : Except Fault (Int × Int) := do
  let s ← searchLoop stabs type loopFuel
    ⟨regionLeft, regionRight, regionLeft, regionRight, false, addr⟩
  if !s.anyMatches then .ok (s.regionLeft, toInt (s.regionLeft - 1))
  else do
    let l ← scanBack stabs type (fun l => decide (l > s.regionLeft)) loopFuel s.regionRight
    .ok (l, s.regionRight)

end

/-! ## The entries of the type -/

/-- The value of the entry, if there is one and it is of the type. -/
def stabValue (stabs : List Stab) (type : Int) (i : Int) : Option Nat :=
  if i < 0 then none
  else stabs[i.toNat]?.bind fun stab =>
    if (stab.nType.toNat : Int) = type then some stab.nValue else none

/-- A region of a table in which the values of the entries of the type are in order. -/
structure StabRegion (stabs : List Stab) (type left right : Int) : Prop where
  /-- The table is in memory; an entry has 12 bytes. -/
  fits : 12 * stabs.length ≤ 2 ^ 32
  /-- The region is in the table. -/
  left_nonneg : 0 ≤ left
  left_le : left ≤ stabs.length
  right_lt : right < stabs.length
  /-- The values are strictly increasing. -/
  sorted : ∀ i j x y, left ≤ i → i < j → j ≤ right → stabValue stabs type i = some x →
    stabValue stabs type j = some y → x < y

section
variable {stabs : List Stab} {type : Int}

theorem stabValue_lt {i : Int} {x : Nat} (h : stabValue stabs type i = some x) : x < 2 ^ 32 := by
  rw [stabValue] at h
  split at h
  · cases h
  · obtain ⟨stab, -, hstab⟩ := Option.bind_eq_some_iff.1 h
    split at hstab
    · exact Option.some.inj hstab ▸ stab.nValue_lt
    · cases hstab

theorem stabAt_ok (type : Int) {i : Int} (h0 : 0 ≤ i) (hi : i < stabs.length) :
    ∃ stab, stabAt stabs i = .ok stab ∧
      stabValue stabs type i =
        if (stab.nType.toNat : Int) = type then some stab.nValue else none := by
  have hlt : i.toNat < stabs.length := by omega
  refine ⟨stabs[i.toNat], ?_, ?_⟩
  · rw [stabAt, if_neg (by omega), List.getElem?_eq_getElem hlt, deref_some]
  · rw [stabValue, if_neg (by omega), List.getElem?_eq_getElem hlt, Option.bind_some]

/-- What the loops that go back return: `m` if it is in front of `b`, or else the last entry of the
type from `b` to `m`, or else `b - 1`. -/
def GoesBack (v : Int → Option Nat) (b m m' : Int) : Prop :=
  (m < b ∧ m' = m) ∨ (b ≤ m ∧ (∀ i, b ≤ i → i ≤ m → v i = none) ∧ m' = b - 1) ∨
    (b ≤ m' ∧ m' ≤ m ∧ (∃ x, v m' = some x) ∧ ∀ i, m' < i → i ≤ m → v i = none)

variable (stabs type) in
theorem scanBack_ok {inside : Int → Bool} {b : Int} (hb : 0 ≤ b)
    (hin : ∀ m, inside m = true ↔ b ≤ m) (fuel : Nat) :
    ∀ m : Int, m < stabs.length → m < 2 ^ 31 → (m + 1 - b).toNat < fuel →
      ∃ m', scanBack stabs type inside fuel m = .ok m' ∧
        GoesBack (stabValue stabs type) b m m' := by
  induction fuel with
  | zero => exact fun m _ _ hfuel => absurd hfuel (Nat.not_lt_zero _)
  | succ fuel ih =>
    intro m hm hbig hfuel
    rw [scanBack]
    by_cases hbm : b ≤ m
    · obtain ⟨stab, hat, hvalue⟩ := stabAt_ok type (by omega) hm
      rw [if_pos ((hin m).2 hbm), hat, ok_bind]
      by_cases htype : (stab.nType.toNat : Int) = type
      · rw [if_pos htype] at hvalue
        rw [if_neg (not_not.2 htype)]
        exact ⟨m, rfl, .inr (.inr ⟨hbm, Int.le_refl m, ⟨_, hvalue⟩, fun i hi him => by omega⟩)⟩
      · rw [if_neg htype] at hvalue
        rw [if_pos htype, toInt_eq]
        obtain ⟨m', hrun, hback⟩ := ih (m - 1) (by omega) (by omega) (by omega)
        -- an entry of another type at `m`, and what is below it
        have hnone : ∀ {c}, (∀ i, c ≤ i → i ≤ m - 1 → stabValue stabs type i = none) →
            ∀ i, c ≤ i → i ≤ m → stabValue stabs type i = none := by
          intro c hbelow i hci him
          rcases Int.lt_or_eq_of_le him with hlt | rfl
          · exact hbelow i hci (by omega)
          · exact hvalue
        refine ⟨m', hrun, ?_⟩
        rcases hback with ⟨hlt, rfl⟩ | ⟨-, hbelow, rfl⟩ | ⟨hle, hle', hsome, hbelow⟩
        · refine .inr (.inl ⟨hbm, hnone fun i _ _ => by omega, by omega⟩)
        · exact .inr (.inl ⟨hbm, hnone hbelow, rfl⟩)
        · refine .inr (.inr ⟨hle, by omega, hsome, ?_⟩)
          exact hnone fun i hi => hbelow i (by omega)
    · rw [if_neg (fun h => hbm ((hin m).1 h))]
      exact ⟨m, rfl, .inl ⟨by omega, rfl⟩⟩

/-- The last entry of the type from `l` to `c`. -/
def LastIn (v : Int → Option Nat) (l c m : Int) : Prop :=
  l ≤ m ∧ m ≤ c ∧ (∃ x, v m = some x) ∧ ∀ i, m < i → i ≤ c → v i = none

/-- The four ways through the body of the loop. -/
inductive Stepped (v : Int → Option Nat) (s : StabSearch) : StabSearch → Prop
  /-- There is no entry of the type up to the middle. -/
  | skip (h : ∀ i, s.l ≤ i → i ≤ (s.l + s.r) / 2 → v i = none) :
      Stepped v s { s with l := (s.l + s.r) / 2 + 1 }
  /-- The value is below the address. -/
  | below {m : Int} {x : Nat} (h : LastIn v s.l ((s.l + s.r) / 2) m) (hx : v m = some x)
      (hlt : x < s.addr) :
      Stepped v s { s with anyMatches := true, regionLeft := m, l := (s.l + s.r) / 2 + 1 }
  /-- The value is above the address. -/
  | above {m : Int} {x : Nat} (h : LastIn v s.l ((s.l + s.r) / 2) m) (hx : v m = some x)
      (hlt : s.addr < x) :
      Stepped v s { s with anyMatches := true, regionRight := m - 1, r := m - 1 }
  /-- The value is the address. -/
  | equal {m : Int} (h : LastIn v s.l ((s.l + s.r) / 2) m) (hx : v m = some s.addr) :
      Stepped v s
        { s with anyMatches := true, regionLeft := m, l := m, addr := Word.add s.addr 1 }

variable (stabs) in
theorem searchStep_ok (type : Int) {s : StabSearch} (hl : 0 ≤ s.l) (hr : s.r < stabs.length)
    (hbig : s.r < 2 ^ 30) (hle : s.l ≤ s.r) :
    ∃ s', searchStep stabs type s = .ok s' ∧ Stepped (stabValue stabs type) s s' := by
  have htrue : (toInt (s.l + s.r)).tdiv 2 = (s.l + s.r) / 2 := by
    rw [toInt_eq, Int.tdiv_eq_ediv_of_nonneg (by omega)]
  have hnext : toInt ((s.l + s.r) / 2 + 1) = (s.l + s.r) / 2 + 1 := toInt_eq
  obtain ⟨m, hscan, hback⟩ := scanBack_ok stabs type hl (fun m => decide_eq_true_iff)
    loopFuel ((s.l + s.r) / 2) (by omega) (by omega) (by rw [loopFuel]; omega)
  rw [searchStep, htrue, hscan, ok_bind]
  rcases hback with ⟨hlt, -⟩ | ⟨-, hnone, rfl⟩ | ⟨hlm, hmc, hsome, hnone⟩
  · omega
  · rw [if_pos (by omega), hnext]
    exact ⟨_, rfl, .skip hnone⟩
  · have hlast : LastIn (stabValue stabs type) s.l ((s.l + s.r) / 2) m := ⟨hlm, hmc, hsome, hnone⟩
    obtain ⟨stab, hat, hvalue⟩ := stabAt_ok type (by omega)
      (show m < stabs.length by omega)
    obtain ⟨x, hx⟩ := hsome
    have htype : (stab.nType.toNat : Int) = type := by
      by_contra hother
      rw [if_neg hother, hx] at hvalue
      cases hvalue
    rw [if_pos htype] at hvalue
    rw [if_neg (by omega), hat, ok_bind]
    by_cases hbelow : stab.nValue < s.addr
    · rw [if_pos hbelow, hnext]
      exact ⟨_, rfl, .below hlast hvalue hbelow⟩
    · rw [if_neg hbelow]
      by_cases habove : stab.nValue > s.addr
      · rw [if_pos habove, toInt_eq]
        exact ⟨_, rfl, .above hlast hvalue habove⟩
      · rw [if_neg habove]
        refine ⟨_, rfl, .equal hlast ?_⟩
        rw [hvalue, show stab.nValue = s.addr by omega]

end

/-! ## Which entry is met first -/

/-- Halving the region from `l` to `r`, the search meets the entry at `q` before the one at `p`,
which is in front of it. -/
inductive MetFirst (v : Int → Option Nat) (p q : Int) : Int → Int → Prop
  /-- It is the last one up to the middle. -/
  | here {l r : Int} (h : LastIn v l ((l + r) / 2) q) : MetFirst v p q l r
  /-- All up to the middle are in front of both. -/
  | right {l r : Int} (h : ∀ i x, l ≤ i → i ≤ (l + r) / 2 → v i = some x → i < p)
      (hmet : MetFirst v p q ((l + r) / 2 + 1) r) : MetFirst v p q l r
  /-- The last one up to the middle is behind both. -/
  | left {l r m : Int} (h : LastIn v l ((l + r) / 2) m) (hm : q < m)
      (hmet : MetFirst v p q l (m - 1)) : MetFirst v p q l r

section
variable {v : Int → Option Nat} {p q l r m m' c : Int}

theorem LastIn.unique (h : LastIn v l c m) (h' : LastIn v l c m') : m = m' := by
  obtain ⟨-, hmc, ⟨x, hx⟩, hnone⟩ := h
  obtain ⟨-, hmc', ⟨x', hx'⟩, hnone'⟩ := h'
  rcases Int.lt_trichotomy m m' with hlt | heq | hgt
  · rw [hnone m' hlt hmc'] at hx'
    cases hx'
  · exact heq
  · rw [hnone' m hgt hmc] at hx
    cases hx

theorem metFirst_right (h : ∀ i x, l ≤ i → i ≤ (l + r) / 2 → v i = some x → i < p) (hpq : p < q) :
    MetFirst v p q l r ↔ MetFirst v p q ((l + r) / 2 + 1) r := by
  refine ⟨fun hmet => ?_, .right h⟩
  cases hmet with
  | here hlast =>
    obtain ⟨hlq, hqc, ⟨x, hx⟩, -⟩ := hlast
    exact absurd (h q x hlq hqc hx) (by omega)
  | right _ hmet => exact hmet
  | left hlast hm _ =>
    obtain ⟨hlm, hmc, ⟨x, hx⟩, -⟩ := hlast
    exact absurd (h _ x hlm hmc hx) (by omega)

theorem metFirst_left (h : LastIn v l ((l + r) / 2) m) (hm : q < m) (hpq : p < q) :
    MetFirst v p q l r ↔ MetFirst v p q l (m - 1) := by
  refine ⟨fun hmet => ?_, .left h hm⟩
  cases hmet with
  | here hlast => exact absurd (h.unique hlast) (by omega)
  | right hall _ =>
    obtain ⟨hlm, hmc, ⟨x, hx⟩, -⟩ := h
    exact absurd (hall m x hlm hmc hx) (by omega)
  | left hlast _ hmet => exact h.unique hlast ▸ hmet

theorem not_metFirst (h : LastIn v l ((l + r) / 2) p) (hpq : p < q) : ¬ MetFirst v p q l r := by
  intro hmet
  cases hmet with
  | here hlast | left hlast hm _ => exact absurd (h.unique hlast) (by omega)
  | right hall _ =>
    obtain ⟨hlp, hpc, ⟨x, hx⟩, -⟩ := h
    exact absurd (hall p x hlp hpc hx) (Int.lt_irrefl p)

end

/-! ## What the loop keeps -/

/-- The values of the entries are strictly increasing from `left` to `right`. -/
def Increasing (v : Int → Option Nat) (left right : Int) : Prop :=
  ∀ i j x y, left ≤ i → i < j → j ≤ right → v i = some x → v j = some y → x < y

/-- How far the search is with the entries at `e` for `a` and at `q` for `a + 1`: none is met, or
the second one is and has been left, or the first one is and the second one is still to come. -/
def MetOrder (v : Int → Option Nat) (left right : Int) (a : Nat) (e q : Int) (s : StabSearch) :
    Prop :=
  (s.addr = a ∧ s.l ≤ e ∧ q ≤ s.r ∧ (MetFirst v e q s.l s.r ↔ MetFirst v e q left right)) ∨
    (s.r < q ∧ MetFirst v e q left right) ∨
    (a < s.addr ∧ q ≤ s.r ∧ ¬ MetFirst v e q left right)

/-- What the loop keeps, from the address `a` on and as long as the address does not become 0. -/
structure StabInv (v : Int → Option Nat) (left right : Int) (a : Nat) (s : StabSearch) : Prop where
  left_le : left ≤ s.l
  le_right : s.r ≤ right
  regionRight : s.regionRight = s.r
  addr_le : a ≤ s.addr
  addr_lt : s.addr < 2 ^ 32
  /-- The entries in front of the window are below the address. -/
  below : ∀ i x, left ≤ i → i < s.l → v i = some x → x < s.addr
  /-- The entries behind it are above the address of the call. -/
  above : ∀ i x, s.r < i → i ≤ right → v i = some x → a < x
  /-- The window ends where the region does, or in front of an entry. -/
  next : s.r = right ∨ (s.r < right ∧ ∃ x, v (s.r + 1) = some x)
  /-- `*region_left` is unchanged, or an entry below the address. -/
  start : s.regionLeft = left ∨ (left ≤ s.regionLeft ∧ s.regionLeft ≤ s.l ∧ s.regionLeft ≤ s.r ∧
    ∃ x, v s.regionLeft = some x ∧ x < s.addr)
  matched : ∀ y, a ≤ y → y < s.addr → ∃ i, left ≤ i ∧ i ≤ s.l ∧ i ≤ s.r ∧ v i = some y
  /-- Without a match there is no entry outside the window. -/
  unseen : s.anyMatches = false → s.regionLeft = left ∧
    ∀ i, left ≤ i → i ≤ right → i < s.l ∨ s.r < i → v i = none
  seen : s.anyMatches = true → ∃ i x, left ≤ i ∧ i ≤ right ∧ v i = some x
  order : ∀ e q, left ≤ e → e < q → q ≤ right → v e = some a → v q = some (a + 1) →
    MetOrder v left right a e q s

section
variable {v : Int → Option Nat} {left right : Int} {a : Nat} {s : StabSearch} {m : Int} {x : Nat}

section
variable (hv : Increasing v left right) {i j : Int}
include hv

theorem Increasing.le_of_le {x y : Nat} (hi : left ≤ i)
    (hij : i ≤ j) (hj : j ≤ right) (hx : v i = some x) (hy : v j = some y) : x ≤ y := by
  rcases Int.lt_or_eq_of_le hij with hlt | rfl
  · exact Nat.le_of_lt (hv i j x y hi hlt hj hx hy)
  · exact Nat.le_of_eq (Option.some.inj (hx.symm.trans hy))

theorem Increasing.lt_of_lt {x y : Nat} (hi : i ≤ right)
    (hj : left ≤ j) (hx : v i = some x) (hy : v j = some y) (hxy : x < y) : i < j := by
  by_contra hji
  exact absurd (hv.le_of_le hj (Int.not_lt.1 hji) hi hy hx) (Nat.not_le.2 hxy)

theorem Increasing.eq_of_eq {x : Nat} (hi : left ≤ i) (hi' : i ≤ right) (hj : left ≤ j)
    (hj' : j ≤ right) (hx : v i = some x) (hy : v j = some x) : i = j := by
  rcases Int.lt_trichotomy i j with hlt | heq | hgt
  · exact absurd (hv i j x x hi hlt hj' hx hy) (Nat.lt_irrefl x)
  · exact heq
  · exact absurd (hv j i x x hj hgt hi' hy hx) (Nat.lt_irrefl x)

end

theorem stabInv_init (left right : Int) (ha : a < 2 ^ 32) :
    StabInv v left right a ⟨left, right, left, right, false, a⟩ where
  left_le := Int.le_refl _
  le_right := Int.le_refl _
  regionRight := rfl
  addr_le := Nat.le_refl _
  addr_lt := ha
  below i x hi hi' := absurd hi (Int.not_le.2 hi')
  above i x hi hi' := absurd hi (Int.not_lt.2 hi')
  next := .inl rfl
  start := .inl rfl
  matched y hy hy' := absurd hy (Nat.not_le.2 hy')
  unseen _ := ⟨rfl, fun i hi hi' hout => by dsimp only at hout; omega⟩
  seen h := by cases h
  order e q he _ hq _ _ := .inl ⟨rfl, he, hq, Iff.rfl⟩

variable (hv : Increasing v left right) (hi : StabInv v left right a s)
include hi

theorem StabInv.skip (hle : s.l ≤ s.r) (h : ∀ i, s.l ≤ i → i ≤ (s.l + s.r) / 2 → v i = none) :
    StabInv v left right a { s with l := (s.l + s.r) / 2 + 1 } where
  left_le := by have := hi.left_le; dsimp only; omega
  le_right := hi.le_right
  regionRight := hi.regionRight
  addr_le := hi.addr_le
  addr_lt := hi.addr_lt
  below i x hleft hlt hx := by
    rcases Int.lt_or_le i s.l with hl | hl
    · exact hi.below i x hleft hl hx
    · rw [h i hl (by dsimp only at hlt; omega)] at hx
      cases hx
  above := hi.above
  next := hi.next
  start := hi.start.imp_right fun ⟨h1, h2, h3⟩ => ⟨h1, by dsimp only; omega, h3⟩
  matched y hy hy' := by
    obtain ⟨i, h1, h2, h3⟩ := hi.matched y hy hy'
    exact ⟨i, h1, by dsimp only; omega, h3⟩
  unseen hany := by
    refine ⟨(hi.unseen hany).1, fun i hleft hright hout => ?_⟩
    dsimp only at hout
    by_cases hin : s.l ≤ i ∧ i ≤ (s.l + s.r) / 2
    · exact h i hin.1 hin.2
    · exact (hi.unseen hany).2 i hleft hright (by omega)
  seen := hi.seen
  order e q he heq hq hve hvq := by
    rcases hi.order e q he heq hq hve hvq with ⟨haddr, hl, hr, hmet⟩ | hdone
    · have hce : (s.l + s.r) / 2 < e := by
        by_contra hec
        rw [h e hl (by omega)] at hve
        cases hve
      refine .inl ⟨haddr, by dsimp only; omega, hr, ?_⟩
      rw [← hmet]
      refine (metFirst_right (fun i x hli hic hx => ?_) heq).symm
      rw [h i hli hic] at hx
      cases hx
    · exact .inr hdone
include hv

section
variable (h : LastIn v s.l ((s.l + s.r) / 2) m)
include h

theorem StabInv.low (hx : v m = some x) (hlt : x < s.addr) : StabInv v left right a
      { s with anyMatches := true, regionLeft := m, l := (s.l + s.r) / 2 + 1 } := by
  obtain ⟨hlm, hmc, -, hnone⟩ := h
  have hleft := hi.left_le
  have hright := hi.le_right
  -- an entry up to the middle is not behind `m`
  have hupto : ∀ i y, i ≤ (s.l + s.r) / 2 → v i = some y → i ≤ m := by
    intro i y hic hy
    by_contra hmi
    rw [hnone i (by omega) hic] at hy
    cases hy
  have hl' : s.l ≤ (s.l + s.r) / 2 + 1 := by omega
  have hml' : m ≤ (s.l + s.r) / 2 + 1 := by omega
  have hmr : m ≤ s.r := by omega
  exact
    { left_le := Int.le_trans hleft hl'
      le_right := hright
      regionRight := hi.regionRight
      addr_le := hi.addr_le
      addr_lt := hi.addr_lt
      below := fun i y hli hic hy => by
        have him := hupto i y (Int.lt_add_one_iff.1 hic) hy
        exact lt_of_le_of_lt (hv.le_of_le hli him (by omega) hy hx) hlt
      above := hi.above
      next := hi.next
      start := .inr ⟨Int.le_trans hleft hlm, hml', hmr, x, hx, hlt⟩
      matched := fun y hy hy' => by
        obtain ⟨i, h1, h2, h3⟩ := hi.matched y hy hy'
        exact ⟨i, h1, Int.le_trans h2 hl', h3⟩
      unseen := fun h => by cases h
      seen := fun _ => ⟨m, x, by omega, by omega, hx⟩
      order := fun e q he heq hq hve hvq => by
        rcases hi.order e q he heq hq hve hvq with ⟨haddr, hl, hr, hmet⟩ | hdone
        · have hme : m < e := hv.lt_of_lt (by omega) he hx hve (haddr ▸ hlt)
          have hce : (s.l + s.r) / 2 < e := by
            by_contra hec
            have := hupto e a (by omega) hve
            omega
          refine .inl ⟨haddr, hce, hr, ?_⟩
          rw [← hmet]
          exact (metFirst_right (fun i y _ hic hy => by have := hupto i y hic hy; omega) heq).symm
        · exact .inr hdone }

theorem StabInv.high (hx : v m = some x) (hlt : s.addr < x) :
    StabInv v left right a { s with anyMatches := true, regionRight := m - 1, r := m - 1 } := by
  have hlast := h
  obtain ⟨hlm, hmc, -, -⟩ := h
  have hleft := hi.left_le
  have hright := hi.le_right
  have haddr := hi.addr_le
  -- an entry with a smaller value stays in the window
  have hstays : ∀ i y, i ≤ right → v i = some y → y < x → i ≤ m - 1 := by
    intro i y hir hy hyx
    have := hv.lt_of_lt hir (by omega) hy hx hyx
    omega
  exact
    { left_le := hleft
      le_right := show m - 1 ≤ right by omega
      regionRight := rfl
      addr_le := haddr
      addr_lt := hi.addr_lt
      below := hi.below
      above := fun i y hmi hir hy => by
        have := hv.le_of_le (by omega) (Int.le_of_sub_one_lt hmi) hir hx hy
        omega
      next := .inr ⟨show m - 1 < right by omega, x, by rw [Int.sub_add_cancel]; exact hx⟩
      start := by
        refine hi.start.imp_right fun ⟨h1, h2, h3, y, hy, hylt⟩ => ⟨h1, h2, ?_, y, hy, hylt⟩
        exact hstays s.regionLeft y (by omega) hy (by omega)
      matched := fun y hy hy' => by
        obtain ⟨i, h1, h2, h3, hiy⟩ := hi.matched y hy hy'
        exact ⟨i, h1, h2, hstays i y (by omega) hiy (hy'.trans hlt), hiy⟩
      unseen := fun h => by cases h
      seen := fun _ => ⟨m, x, by omega, by omega, hx⟩
      order := fun e q he heq hq hve hvq => by
        rcases hi.order e q he heq hq hve hvq with
          ⟨haddr', hl, hr, hmet⟩ | ⟨hr, hmet⟩ | ⟨haddr', hr, hmet⟩
        · rcases Nat.lt_or_eq_of_le (show a + 1 ≤ x by omega) with hlt' | rfl
          · have hqm : q ≤ m - 1 := hstays q _ hq hvq hlt'
            refine .inl ⟨haddr', hl, hqm, ?_⟩
            rw [← hmet]
            exact (metFirst_left hlast (Int.lt_of_le_sub_one hqm) heq).symm
          · obtain rfl : m = q := hv.eq_of_eq (by omega) (by omega) (by omega) hq hx hvq
            exact .inr (.inl ⟨Int.sub_one_lt_of_le (Int.le_refl m), hmet.1 (.here hlast)⟩)
        · exact .inr (.inl ⟨show m - 1 < q by omega, hmet⟩)
        · exact .inr (.inr ⟨haddr', hstays q _ hq hvq (by omega), hmet⟩) }

theorem StabInv.hit (hx : v m = some s.addr) (hwrap : s.addr + 1 < 2 ^ 32) : StabInv v left right a
      { s with anyMatches := true, regionLeft := m, l := m, addr := Word.add s.addr 1 } := by
  have hlast := h
  obtain ⟨hlm, hmc, -, -⟩ := h
  have hleft := hi.left_le
  have hright := hi.le_right
  have haddr := hi.addr_le
  have hmr : m ≤ s.r := by omega
  rw [Word.add_eq hwrap]
  exact
    { left_le := Int.le_trans hleft hlm
      le_right := hright
      regionRight := hi.regionRight
      addr_le := Nat.le_succ_of_le haddr
      addr_lt := hwrap
      below := fun i y hli him hy =>
        Nat.lt_succ_of_lt (hv i m y s.addr hli him (Int.le_trans hmr hright) hy hx)
      above := hi.above
      next := hi.next
      start := .inr ⟨Int.le_trans hleft hlm, Int.le_refl m, hmr, s.addr, hx, Nat.lt_succ_self _⟩
      matched := fun y hy hy' => by
        rcases Nat.lt_or_eq_of_le (Nat.le_of_lt_succ hy') with hlt | rfl
        · obtain ⟨i, h1, h2, h3⟩ := hi.matched y hy hlt
          exact ⟨i, h1, Int.le_trans h2 hlm, h3⟩
        · exact ⟨m, Int.le_trans hleft hlm, Int.le_refl m, hmr, hx⟩
      unseen := fun h => by cases h
      seen := fun _ => ⟨m, s.addr, by omega, by omega, hx⟩
      order := fun e q he heq hq hve hvq => by
        rcases hi.order e q he heq hq hve hvq with
          ⟨haddr', hl, hr, hmet⟩ | ⟨hr, hmet⟩ | ⟨haddr', hr, hmet⟩
        · obtain rfl : m = e := hv.eq_of_eq (by omega) (by omega) he (by omega) hx (haddr' ▸ hve)
          refine .inr (.inr ⟨Nat.lt_succ_of_le haddr, hr, fun hm => ?_⟩)
          exact not_metFirst hlast heq (hmet.2 hm)
        · exact .inr (.inl ⟨hr, hmet⟩)
        · exact .inr (.inr ⟨Nat.lt_succ_of_lt haddr', hr, hmet⟩) }

end

end

/-! ## The loop -/

/-- A bound on the iterations that are left: an equal value may leave the window as it is, but not
twice in a row. -/
def stabLeft (v : Int → Option Nat) (s : StabSearch) : Nat :=
  2 * (s.r + 1 - s.l).toNat + if v s.l = some s.addr then 1 else 0

section
variable {stabs : List Stab} {type left right : Int} {a : Nat} {s : StabSearch} {m : Int}

theorem StabRegion.increasing (hreg : StabRegion stabs type left right) :
    Increasing (stabValue stabs type) left right := hreg.sorted

theorem stabLeft_bounds (v : Int → Option Nat) (s : StabSearch) :
    2 * (s.r + 1 - s.l).toNat ≤ stabLeft v s ∧ stabLeft v s ≤ 2 * (s.r + 1 - s.l).toNat + 1 := by
  rw [stabLeft]
  split <;> omega

theorem Stepped.stabLeft_lt {v : Int → Option Nat} {s' : StabSearch} (h : Stepped v s s')
    (hle : s.l ≤ s.r) : stabLeft v s' < stabLeft v s := by
  have hbefore := (stabLeft_bounds v s).1
  have hafter := (stabLeft_bounds v s').2
  cases h with
  | skip h =>
    dsimp only at hafter
    omega
  | below h hx hlt =>
    dsimp only at hafter
    omega
  | above h hx hlt =>
    have hmc := h.2.1
    dsimp only at hafter
    omega
  | @equal m h hx =>
    rcases Int.lt_or_eq_of_le h.1 with hlt | rfl
    · dsimp only at hafter
      omega
    · -- the window is the same, but the address is not the value of the entry any more
      have haddr : s.addr ≠ Word.add s.addr 1 := by
        rw [Word.add]
        omega
      rw [stabLeft, stabLeft, if_pos hx, if_neg fun heq =>
        haddr (Option.some.inj (hx.symm.trans heq))]
      exact Nat.lt_succ_self _

/-- **The address becomes 0** when the entry with the largest value is met.  The next iteration then
takes the entry to be above the address, and the loop ends. -/
theorem searchLoop_wrap (hreg : StabRegion stabs type left right) (hleft : left ≤ m) (hmr : m ≤ s.r)
    (hr : s.r ≤ right) (hx : stabValue stabs type m = some (2 ^ 32 - 1)) (fuel : Nat) :
    ∃ s', searchLoop stabs type (fuel + 2)
        { s with anyMatches := true, regionLeft := m, l := m, addr := 0 } = .ok s' ∧
      s'.anyMatches = true ∧ s'.regionLeft = m ∧ s'.regionRight = m - 1 := by
  have hnone := hreg.left_nonneg
  have hlen := hreg.right_lt
  -- there is no larger value
  have hlast : ∀ i y, m ≤ i → i ≤ s.r → stabValue stabs type i = some y → i = m := by
    intro i y hmi hir hy
    by_contra hne
    have := hreg.increasing m i _ y hleft (by omega) (by omega) hx hy
    have := stabValue_lt hy
    omega
  have hfits := hreg.fits
  obtain ⟨s1, hstep, hcases⟩ := searchStep_ok stabs type
    (s := { s with anyMatches := true, regionLeft := m, l := m, addr := 0 })
    (by dsimp only; omega) (by dsimp only; omega) (by dsimp only; omega) hmr
  rw [searchLoop, if_pos hmr, hstep, ok_bind]
  cases hcases with
  | skip h =>
    rw [h m (Int.le_refl m) (by dsimp only; omega)] at hx
    cases hx
  | below h _ hlt => exact absurd hlt (Nat.not_lt_zero _)
  | @above m' y h hy hlt =>
    obtain ⟨hmm', hm'c, -, -⟩ := h
    dsimp only at hmm' hm'c
    obtain rfl : m' = m := hlast m' y hmm' (by omega) hy
    rw [searchLoop, if_neg (by dsimp only; omega)]
    exact ⟨_, rfl, rfl, rfl, rfl⟩
  | @equal m' h hy =>
    obtain ⟨hmm', hm'c, -, -⟩ := h
    dsimp only at hmm' hm'c hy
    obtain rfl : m' = m := hlast m' 0 hmm' (by omega) hy
    rw [hx] at hy
    cases hy

/-- **The loop ends**, with an empty window or because the address has become 0. -/
theorem searchLoop_outcome (hreg : StabRegion stabs type left right) (fuel : Nat) :
    ∀ s : StabSearch, StabInv (stabValue stabs type) left right a s →
      stabLeft (stabValue stabs type) s < fuel →
      ∃ s', searchLoop stabs type fuel s = .ok s' ∧
        ((StabInv (stabValue stabs type) left right a s' ∧ s'.r < s'.l) ∨
          ∃ s0 m, StabInv (stabValue stabs type) left right a s0 ∧ s0.addr = 2 ^ 32 - 1 ∧ s0.l ≤ m ∧
            m ≤ s0.r ∧ stabValue stabs type m = some s0.addr ∧ s'.anyMatches = true ∧
            s'.regionLeft = m ∧ s'.regionRight = m - 1) := by
  induction fuel with
  | zero => exact fun s _ hfuel => absurd hfuel (Nat.not_lt_zero _)
  | succ fuel ih =>
    intro s hi hfuel
    by_cases hle : s.l ≤ s.r
    · have hleft := hi.left_le
      have hright := hi.le_right
      have hnonneg := hreg.left_nonneg
      have hlen := hreg.right_lt
      have hfits := hreg.fits
      obtain ⟨s1, hstep, hcases⟩ := searchStep_ok stabs type (by omega)
        (by omega) (by omega) hle
      have hfuel' : stabLeft (stabValue stabs type) s1 < fuel := by
        have := hcases.stabLeft_lt hle
        omega
      rw [searchLoop, if_pos hle, hstep, ok_bind]
      cases hcases with
      | skip h => exact ih _ (hi.skip hle h) hfuel'
      | below h hx hlt => exact ih _ (hi.low hreg.increasing h hx hlt) hfuel'
      | above h hx hlt => exact ih _ (hi.high hreg.increasing h hx hlt) hfuel'
      | @equal m h hx =>
        have hlm := h.1
        have hmc := h.2.1
        rcases Nat.lt_or_ge (s.addr + 1) (2 ^ 32) with hwrap | hwrap
        · exact ih _ (hi.hit hreg.increasing h hx hwrap) hfuel'
        · have haddr : s.addr = 2 ^ 32 - 1 := by
            have := hi.addr_lt
            omega
          have hzero : Word.add s.addr 1 = 0 := by
            rw [haddr]
            rfl
          have hwindow := (stabLeft_bounds (stabValue stabs type) s).1
          obtain ⟨n, rfl⟩ : ∃ n, fuel = n + 2 := ⟨fuel - 2, by omega⟩
          rw [hzero]
          obtain ⟨s', hrun, hany, hrl, hrr⟩ := searchLoop_wrap hreg
            (by omega) (by omega) hright (haddr ▸ hx) n
          exact ⟨s', hrun, .inr ⟨s, m, hi, haddr, hlm, by omega, hx, hany, hrl, hrr⟩⟩
    · rw [searchLoop, if_neg hle]
      exact ⟨s, rfl, .inl ⟨hi, Int.not_le.1 hle⟩⟩

end

end JinxOS
