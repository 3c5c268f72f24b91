import JinxOS.Lib.Runs
import JinxOS.Mem.PageTable

/-!
# Page tables implement a map

Sequences of calls of `boot_map` and `page_insert` on any number of page directories, which are
cleared at the start.  The abstract model of a directory is the list of the calls itself: an address
is mapped by the last call that covers it (`lastFrame`), and by nothing else.

`mapRun_lookup` is the refinement.  It needs of `pp_alloc` that a page it hands out is not in use,
which is a consequence of the pages in use being marked (`PageTables`), and of the direct map that
it reaches all pages.
-/

namespace JinxOS

/-- A call that maps pages.  A page directory is given by the number of its page. -/
inductive MapCall
  /-- `boot_map(pd, va, pa, bytes, write, user)`. -/
  | bootMap (d va pa bytes : Nat) (write user : Bool)
  /-- `page_insert(pgdir, pno, va, write, user)`. -/
  | pageInsert (d pno va : Nat) (write user : Bool)

namespace MapCall

/-- The page that the call maps an address of a directory to, if it covers the address. -/
def frame? : MapCall → Nat → Nat → Option Nat
  | .bootMap d va pa bytes _ _, d', x =>
    if d' = d ∧ va ≤ x ∧ (x - va) / 4096 * 4096 < bytes then some (pa / 4096 + (x - va) / 4096)
    else none
  | .pageInsert d pno va _ _, d', x => if d' = d ∧ x / 4096 = va / 4096 then some pno else none

/-- Addresses are those of pages and do not wrap around, physical pages are reached by the direct
map, and `page_insert` is called for a page that is not mapped. -/
def Ok (dirs : Nat → Prop) (s : Vmm) : MapCall → Prop
  | .bootMap d va pa bytes _ _ => dirs d ∧ va % 4096 = 0 ∧ pa % 4096 = 0 ∧ va + bytes ≤ 2 ^ 32 ∧
      (0 < bytes → pa + bytes ≤ 2 ^ 30)
  | .pageInsert d pno va _ _ => dirs d ∧ va % 4096 = 0 ∧ va < 2 ^ 32 ∧ pno < 2 ^ 18 ∧
      s.translate (pm2va d) va = none

end MapCall

/-- The state after a call. -/
def mapStep (s : Vmm) : MapCall → Except Fault Vmm
  | .bootMap d va pa bytes write user => bootMap s (pm2va d) va pa bytes write user
  | .pageInsert d pno va write user => do
    let (_, s) ← pageInsert s (pm2va d) pno va write user
    .ok s

/-- The directories are pages that are in use and have been cleared. -/
structure MapInit (dirs : Nat → Prop) (s : Vmm) : Prop where
  wf : s.physmap.Wf
  bits_le : s.physmap.bits ≤ 2 ^ 18
  used : ∀ d, dirs d → d < s.physmap.bits ∧ s.physmap.has d = true
  zero : ∀ d, dirs d → ∀ i, s.mem.load (slot d i) = 0

/-- A run of calls that return. -/
def MapRun (dirs : Nat → Prop) (tr : List (Vmm × MapCall)) (s : Vmm) : Prop :=
  Run (MapInit dirs) (fun s c s' => c.Ok dirs s ∧ mapStep s c = .ok s') tr s

/-- What the last call that covers an address maps it to. -/
def lastFrame : List (Vmm × MapCall) → Nat → Nat → Option Nat
  | [], _, _ => none
  | (_, c) :: tr, d, x => (c.frame? d x).or (lastFrame tr d x)

section
variable {dirs : Nat → Prop} {s s' : Vmm} {t : Tables} {c : MapCall}

theorem MapInit.tables (h : MapInit dirs s) : PageTables dirs (fun _ => False) s emptyTables :=
  .empty h.wf h.bits_le h.used h.zero

/-- The effect of a call on what is found for an address. -/
structure CallEffect (dirs : Nat → Prop) (c : MapCall) (t : Tables) (s' : Vmm) (t' : Tables) :
    Prop where
  tables : PageTables dirs (fun _ => False) s' t'
  covered : ∀ d x f, x < 2 ^ 32 → c.frame? d x = some f →
    (TablesAt t' d x).map (fun q => q.2.frame) = some f
  rest : ∀ d x, x < 2 ^ 32 → c.frame? d x = none → TablesAt t' d x = TablesAt t d x

theorem Maps.callEffect {d : Nat} {write user : Bool} {cover : Nat → Prop}
    {val : Nat → Nat} {t' : Tables}
    (h : Maps dirs (fun _ => False) d write user cover val s t s' t')
    (hsome : ∀ d' x f, x < 2 ^ 32 → c.frame? d' x = some f → d' = d ∧ cover x ∧ val x = f)
    (hnone : ∀ d' x, x < 2 ^ 32 → c.frame? d' x = none → d' ≠ d ∨ ¬ cover x) :
    CallEffect dirs c t s' t' where
  tables := h.tables
  covered d' x f hx hf := by
    obtain ⟨rfl, hcov, hval⟩ := hsome d' x f hx hf
    obtain ⟨q, hq, hframe, -⟩ := h.covered x hx hcov
    rw [hq, Option.map_some, hframe, hval]
  rest d' x hx hf := by
    refine h.rest d' x hx ?_
    rcases hnone d' x hx hf with hd | hcov
    · exact .inr ⟨hd, fun hs => hs⟩
    · exact .inl hcov

/-- **One call.** -/
theorem mapStep_cases (h : PageTables dirs (fun _ => False) s t) (hc : c.Ok dirs s) :
    mapStep s c = .error ppPanic ∨ ∃ s' t', mapStep s c = .ok s' ∧ CallEffect dirs c t s' t' := by
  cases c with
  | bootMap d va pa bytes write user =>
    obtain ⟨hd, hva, hpa, hend, hframes⟩ := hc
    rcases h.bootMap_cases hd pa hva (by omega) hend write user with
      ⟨hpanic, -⟩ | ⟨s', t', hrun, hmaps⟩
    · exact .inl hpanic
    · refine .inr ⟨s', t', hrun, hmaps.callEffect (fun d' x f hx hf => ?_) fun d' x hx hf => ?_⟩
      · rw [MapCall.frame?] at hf
        split at hf
        · next hcov =>
          obtain ⟨hd', hle, hlt⟩ := hcov
          refine ⟨hd', ⟨by omega, hlt⟩, ?_⟩
          rw [← Option.some.inj hf, PageTables.bootFrame, Word.add_eq]
          omega
        · cases hf
      · rw [MapCall.frame?] at hf
        split at hf
        · cases hf
        · next hcov =>
          by_cases hd' : d' = d
          · exact .inr fun hcov' => hcov ⟨hd', hcov'.1, hcov'.2⟩
          · exact .inl hd'
  | pageInsert d pno va write user =>
    obtain ⟨hd, -, hva, hpno, hfree⟩ := hc
    have hmod : pno % 2 ^ 20 = pno := Nat.mod_eq_of_lt (lt_trans hpno (by decide))
    have hnone : TablesAt t d va = none := by
      rw [h.translate_eq hd, Option.map_eq_none_iff] at hfree
      exact hfree
    rcases h.pageInsert_cases hd pno hva write user with
      ⟨hpanic, -⟩ | ⟨hsome, -⟩ | ⟨-, s', t', hrun, hmaps⟩
    · exact .inl (by rw [mapStep, hpanic, error_bind])
    · exact absurd hnone hsome
    · refine .inr ⟨s', t', by rw [mapStep, hrun, ok_bind],
        hmaps.callEffect (fun d' x f hx hf => ?_) fun d' x hx hf => ?_⟩
      · rw [MapCall.frame?] at hf
        split at hf
        · next hcov => exact ⟨hcov.1, hcov.2, hmod.trans (Option.some.inj hf)⟩
        · cases hf
      · rw [MapCall.frame?] at hf
        split at hf
        · cases hf
        · next hcov => exact not_and_or.1 hcov

theorem MapRun.tables {tr : List (Vmm × MapCall)} (h : MapRun dirs tr s) :
    ∃ t, PageTables dirs (fun _ => False) s t ∧
      ∀ d x, x < 2 ^ 32 → (TablesAt t d x).map (fun q => q.2.frame) = lastFrame tr d x := by
  induction h with
  | init h => exact ⟨emptyTables, h.tables, fun _ _ _ => rfl⟩
  | @step tr s s' c _ hs ih =>
    obtain ⟨t, ht, hlast⟩ := ih
    rcases mapStep_cases ht hs.1 with hpanic | ⟨s'', t', hrun, heff⟩
    · rw [hs.2] at hpanic
      exact nomatch hpanic
    · obtain rfl : s' = s'' := by
        rw [hs.2] at hrun
        exact Except.ok.inj hrun
      refine ⟨t', heff.tables, fun d x hx => ?_⟩
      rw [lastFrame]
      cases hf : c.frame? d x with
      | none => rw [heff.rest d x hx hf, hlast d x hx, Option.none_or]
      | some f => rw [heff.covered d x f hx hf, Option.some_or]

/-- **Page tables implement a map.**  After any sequence of calls, every address of every directory
is translated to the page that the last call that covered it gave, and to none if no call did.  The
next call returns, unless physical memory is exhausted, and changes no translation of an address
that it does not cover. -/
theorem mapRun_lookup {tr : List (Vmm × MapCall)} (h : MapRun dirs tr s) :
    (∀ d x, dirs d → x < 2 ^ 32 →
      (s.translate (pm2va d) x).map Translation.frame = lastFrame tr d x) ∧
    ∀ c : MapCall, c.Ok dirs s → mapStep s c = .error ppPanic ∨ ∃ s', mapStep s c = .ok s' ∧
      ∀ d x, dirs d → x < 2 ^ 32 → c.frame? d x = none →
        s'.translate (pm2va d) x = s.translate (pm2va d) x := by
  obtain ⟨t, ht, hlast⟩ := h.tables
  refine ⟨fun d x hd hx => ?_, fun c hc => ?_⟩
  · rw [ht.translate_eq hd, Option.map_map, ← hlast d x hx]
    rfl
  · rcases mapStep_cases ht hc with hpanic | ⟨s', t', hrun, heff⟩
    · exact .inl hpanic
    · refine .inr ⟨s', hrun, fun d x hd hx hf => ?_⟩
      have hat := heff.rest d x hx hf
      rw [TablesAt, TablesAt] at hat
      rw [heff.tables.translate_eq hd, ht.translate_eq hd, hat]

/-- Sixteen pages of cleared memory, of which page 0 is in use. -/
def sixteenPages : Vmm where
  k := ⟨fun _ => 0, 0, 0, 0, ⟨false, false, none, 0⟩, spinlockInit⟩
  physmap := ⟨16, [1#8, 0#8]⟩
  npages := 16
  kpd := 0
  base := 0

theorem sixteenPages_init : MapInit (fun d => d = 0) sixteenPages where
  wf := ⟨by decide, rfl, fun k hk hlt => absurd (lt_of_lt_of_le hlt hk) (lt_irrefl _)⟩
  bits_le := by decide
  used := by
    rintro d rfl
    decide
  zero _ _ _ := rfl

/-- The page at `0x1000` is mapped, and its neighbour is not. -/
theorem mapRun_lookup_one : ∃ tr s, MapRun (fun d => d = 0) tr s ∧
    (s.translate (pm2va 0) 0x1000).map Translation.frame = some 5 ∧
    (s.translate (pm2va 0) 0x2000).map Translation.frame = none := by
  have ht := sixteenPages_init.tables
  have hfree : sixteenPages.translate (pm2va 0) 0x1000 = none := by
    rw [ht.translate_eq rfl]
    rfl
  rcases ht.pageInsert_cases rfl 5 (by decide : 0x1000 < 2 ^ 32) true true with
    ⟨-, hfull⟩ | ⟨hsome, -⟩ | ⟨-, s', t', hrun, -⟩
  · exact absurd (hfull 1 (by decide)) (by decide)
  · exact absurd rfl hsome
  · have hstep : mapStep sixteenPages (.pageInsert 0 5 0x1000 true true) = .ok s' := by
      rw [mapStep, hrun, ok_bind]
    have hmap : MapRun (fun d => d = 0) [(sixteenPages, .pageInsert 0 5 0x1000 true true)] s' :=
      .step (.init sixteenPages_init) ⟨⟨rfl, by decide, by decide, by decide, hfree⟩, hstep⟩
    have hlookup := (mapRun_lookup hmap).1
    exact ⟨_, s', hmap, hlookup 0 0x1000 rfl (by decide), hlookup 0 0x2000 rfl (by decide)⟩

end

end JinxOS
