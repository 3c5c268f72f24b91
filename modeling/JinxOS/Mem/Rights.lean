import JinxOS.Mem.AddressSpace

/-!
# Which rights a mapping gives

The hardware grants what both entries on the way to a page grant.  `page_insert` writes the flags
that it is called with to the entry of the page, but `pgdir_walk` writes those of the directory only
when it makes the table: the first call for a page of the table decides for all 1024 of them.  A
page that is mapped later gets the rights that were asked for exactly if the directory grants them
(`DirGrants`).

Other pages keep their rights, because no entry that is present is written.

Calls are those of `AddressSpace`, with any arguments; that the page tables are well formed does not
depend on them.
-/

namespace JinxOS

/-- A call on one of the directories, with 32-bit arguments. -/
def MapCall.On (dirs : Nat → Prop) : MapCall → Prop
  | .bootMap d _ _ _ _ _ => dirs d
  | .pageInsert d _ va _ _ => dirs d ∧ va < 2 ^ 32

/-- A run of calls that return, on directories that are cleared at the start. -/
def FlagRun (dirs : Nat → Prop) (tr : List (Vmm × MapCall)) (s : Vmm) : Prop :=
  Run (MapInit dirs) (fun s c s' => c.On dirs ∧ mapStep s c = .ok s') tr s

/-- The directory has no table for the page, or it grants what is asked for. -/
def DirGrants (s : Vmm) (d va : Nat) (write user : Bool) : Prop :=
  (s.entry (slot d (pdx va))).present = true →
    (write = true → (s.entry (slot d (pdx va))).write = true) ∧
    (user = true → (s.entry (slot d (pdx va))).user = true)

/-- The page has the rights that were asked for, and the pages that were mapped before have the
rights that they had. -/
structure RightsTake (dirs : Nat → Prop) (s : Vmm) (d va : Nat) (write user : Bool) (s' : Vmm) :
    Prop where
  page : ∃ q, s'.translate (pm2va d) va = some q ∧ q.write = write ∧ q.user = user
  rest : ∀ d' x q, dirs d' → x < 2 ^ 32 → s.translate (pm2va d') x = some q →
    s'.translate (pm2va d') x = some q

section
variable {dirs : Nat → Prop} {shared : Fin 1024 → Prop} {s s' : Vmm} {t t' : Tables} {d : Nat}

theorem PageTables.mapStep_keeps {c : MapCall} (h : PageTables dirs shared s t) (hc : c.On dirs)
    (hrun : mapStep s c = .ok s') : ∃ t', PageTables dirs shared s' t' := by
  cases c with
  | bootMap d va pa bytes write user =>
    exact (h.bootMapLoop_keeps hc va pa bytes write user _ hrun).2
  | pageInsert d pno va write user =>
    obtain ⟨⟨res, s1⟩, hinsert, hrun⟩ := of_bind hrun
    cases hrun
    rcases h.pageInsert_cases hc.1 pno hc.2 write user with
      ⟨hpanic, -⟩ | ⟨-, hassert⟩ | ⟨-, s', t', hok, hmaps⟩
    · exact nomatch hpanic.symm.trans hinsert
    · exact nomatch hassert.symm.trans hinsert
    · obtain ⟨-, rfl⟩ := Prod.mk.inj (Except.ok.inj (hok.symm.trans hinsert))
      exact ⟨t', hmaps.tables⟩

theorem FlagRun.tables {tr : List (Vmm × MapCall)} (hrun : FlagRun dirs tr s) :
    ∃ t, PageTables dirs (fun _ => False) s t := by
  refine Run.invariant (I := fun s => ∃ t, PageTables dirs (fun _ => False) s t) (fun s hinit => ?_)
    (fun s c s' hi hstep => ?_) hrun
  · exact ⟨emptyTables, hinit.tables⟩
  · obtain ⟨t, ht⟩ := hi
    exact ht.mapStep_keeps hstep.1 hstep.2

theorem PageTables.dirGrants_iff (h : PageTables dirs shared s t) (hd : dirs d) (va : Nat)
    (write user : Bool) : DirGrants s d va write user ↔
      ∀ p, t.dir d (pdx va) = some p → (write = true → p.write = true) ∧
      (user = true → p.user = true) := by
  have hdir := h.dir_eq d hd (pdx va)
  cases hp : t.dir d (pdx va) with
  | none =>
    rw [hp, Pte.here_eq_none] at hdir
    refine iff_of_true (fun hpresent => ?_) nofun
    rw [hdir] at hpresent
    exact nomatch hpresent
  | some p =>
    obtain ⟨he, hpresent⟩ := h.entry_eq hp
    rw [DirGrants, he]
    exact ⟨fun hg q hq => Option.some.inj hq ▸ hg hpresent, fun hg _ => hg p rfl⟩

section
variable {write user : Bool} {cover : Nat → Prop} {val : Nat → Nat}
    (h : Maps dirs shared d write user cover val s t s' t')
include h

/-- A page that has just been mapped: its rights are those of the directory and of the call. -/
theorem Maps.translate_page (hd : dirs d) {va : Nat} (hva : va < 2 ^ 32)
    (hcov : cover va) : ∃ p q, t'.dir d (pdx va) = some p ∧ s'.translate (pm2va d) va = some q ∧
      q.write = (p.write && write) ∧ q.user = (p.user && user) := by
  obtain ⟨⟨p, e⟩, hat, -, hwrite, huser⟩ := h.covered va hva hcov
  rw [TablesAt] at hat
  refine ⟨p, .of p e, TwoLevel.dir_of_lookup hat, ?_, ?_, ?_⟩
  · rw [h.tables.translate_eq hd, hat]
    rfl
  · rw [Translation.of, hwrite]
  · rw [Translation.of, huser]

/-- The directory grants what is asked for, in a table that is made for it or in an old one. -/
theorem Maps.grants_iff {i : Fin 1024} {p : Pte} (hp : t'.dir d i = some p) :
    ((p.write && write) = write ∧ (p.user && user) = user) ↔
      ∀ q, t.dir d i = some q → (write = true → q.write = true) ∧
      (user = true → q.user = true) := by
  cases hold : t.dir d i with
  | none =>
    obtain ⟨hwrite, huser⟩ := h.rights i p hold hp
    rw [hwrite, huser, Bool.and_self, Bool.and_self]
    exact iff_of_true ⟨rfl, rfl⟩ nofun
  | some q =>
    have hsame := h.dir_old i (hold ▸ Option.some_ne_none q)
    obtain rfl : p = q := Option.some.inj (hp.symm.trans (hsame.trans hold))
    have hand : ∀ a b : Bool, (a && b) = b ↔ (b = true → a = true) := by decide
    rw [hand, hand]
    exact ⟨fun hg r hr => Option.some.inj hr ▸ hg, fun hg => hg p rfl⟩

end

end

/-- **A mapping has the rights that were asked for exactly if the directory grants them.**  This is
for all directories that calls of `page_insert` and `boot_map` lead to. -/
theorem pageInsert_rights_iff {dirs : Nat → Prop} {tr : List (Vmm × MapCall)} {s s' : Vmm}
    (hrun : FlagRun dirs tr s) {d pno va : Nat} (hd : dirs d) (hva : va < 2 ^ 32)
    {write user : Bool} (hinsert : pageInsert s (pm2va d) pno va write user = .ok (0, s')) :
    RightsTake dirs s d va write user s' ↔ DirGrants s d va write user := by
  obtain ⟨t, ht⟩ := hrun.tables
  rcases ht.pageInsert_cases hd pno hva write user with
    ⟨hpanic, -⟩ | ⟨-, hassert⟩ | ⟨hnone, s₁, t', hok, hmaps⟩
  · cases hpanic.symm.trans hinsert
  · cases hassert.symm.trans hinsert
  · obtain ⟨-, rfl⟩ := Prod.mk.inj (Except.ok.inj (hok.symm.trans hinsert))
    obtain ⟨p, q, hp, hq, hwrite, huser⟩ := hmaps.translate_page hd hva rfl
    rw [ht.dirGrants_iff hd, ← hmaps.grants_iff hp]
    constructor
    · rintro ⟨⟨q', hq', hwrite', huser'⟩, -⟩
      obtain rfl : q = q' := Option.some.inj (hq.symm.trans hq')
      exact ⟨hwrite.symm.trans hwrite', huser.symm.trans huser'⟩
    · rintro ⟨hw, hu⟩
      refine ⟨⟨q, hq, hwrite.trans hw, huser.trans hu⟩, fun d' x r hd' hx hr => ?_⟩
      rw [ht.translate_eq hd'] at hr
      rw [hmaps.tables.translate_eq hd', ← hr]
      -- the page was not mapped before, so this is another one
      have hother : ¬ x / 4096 = va / 4096 ∨ d' ≠ d ∧ ¬ False := by
        by_cases hdir : d' = d
        · refine .inl fun hpage => ?_
          obtain ⟨hi, hj⟩ := (page_eq_iff hx hva).2 hpage
          rw [TablesAt, ← hi, ← hj, ← hdir] at hnone
          rw [hnone] at hr
          cases hr
        · exact .inr ⟨hdir, not_false⟩
      exact congrArg (Option.map _) (hmaps.rest d' x hx hother)

/-! ## Two pages of one table -/

/-- Two pages of one table are mapped in the directory of `sixteenPages`, the second for writing and
for users.  The directory has the flags of the first, and the second has the same rights. -/
theorem two_pages (write user : Bool) : ∃ (tr : List (Vmm × MapCall)) (s s' : Vmm),
    FlagRun (fun d => d = 0) tr s ∧ pageInsert s (pm2va 0) 6 0x401000 true true = .ok (0, s') ∧
      (s.entry (slot 0 (pdx 0x401000))).present = true ∧
      (s.entry (slot 0 (pdx 0x401000))).write = write ∧
      (s.entry (slot 0 (pdx 0x401000))).user = user ∧
      ∃ q, s'.translate (pm2va 0) 0x401000 = some q ∧ q.write = write ∧ q.user = user := by
  have ht := sixteenPages_init.tables
  have hfree : sixteenPages.physmap.Free 2 := ⟨[1, 2], by decide, rfl, by decide⟩
  rcases ht.pageInsert_cases rfl 5 (by decide : 0x400000 < 2 ^ 32) write user with
    ⟨-, hfull⟩ | ⟨hsome, -⟩ | ⟨-, s, t, hfirst, hmaps⟩
  · exact absurd hfull hfree.not_full
  · exact absurd rfl hsome
  · have hpage : ∀ x, x < 2 ^ 32 → x / 4096 = 0x400000 / 4096 → pdx x = pdx 0x400000 :=
      fun x hx hc =>
      ((page_eq_iff hx (by decide)).2 hc).1
    have hempty : TablesAt t 0 0x401000 = none :=
      hmaps.rest 0 0x401000 (by decide) (.inl (by decide))
    have hrun : FlagRun (fun d => d = 0) [(sixteenPages, .pageInsert 0 5 0x400000 write user)]
        s := by
      refine .step (.init sixteenPages_init) ⟨⟨rfl, by decide⟩, ?_⟩
      rw [mapStep, hfirst, ok_bind]
    obtain ⟨⟨p, e⟩, hat, -⟩ := hmaps.covered 0x400000 (by decide) rfl
    have hp : t.dir 0 (pdx 0x400000) = some p := TwoLevel.dir_of_lookup hat
    obtain ⟨hentry, hpresent⟩ := hmaps.tables.entry_eq hp
    obtain ⟨hwrite, huser⟩ := hmaps.rights _ p rfl hp
    rcases hmaps.tables.pageInsert_cases rfl 6 (by decide : 0x401000 < 2 ^ 32) true true with
      ⟨-, hfull⟩ | ⟨hsome, -⟩ | ⟨-, s', t', hsecond, hmaps'⟩
    · exact absurd hfull (hmaps.free_one hpage hfree).not_full
    · exact absurd hempty hsome
    · have hi : pdx 0x401000 = pdx 0x400000 := by decide
      obtain ⟨p', q, hp', hq, hqwrite, hquser⟩ := hmaps'.translate_page rfl (by decide) rfl
      have hold := hmaps'.dir_old (pdx 0x400000) (hp ▸ Option.some_ne_none p)
      obtain rfl : p' = p := Option.some.inj ((hi ▸ hp').symm.trans (hold.trans hp))
      refine ⟨_, s, s', hrun, hsecond, ?_⟩
      rw [hi, hentry]
      rw [Bool.and_true] at hqwrite hquser
      exact ⟨hpresent, hwrite, huser, q, hq, hqwrite.trans hwrite, hquser.trans huser⟩

/-- If the first page was for writing and for users, so is the second. -/
theorem pageInsert_rights_iff_two : ∃ (tr : List (Vmm × MapCall)) (s s' : Vmm),
    FlagRun (fun d => d = 0) tr s ∧ pageInsert s (pm2va 0) 6 0x401000 true true = .ok (0, s') ∧
      RightsTake (fun d => d = 0) s 0 0x401000 true true s' := by
  obtain ⟨tr, s, s', hrun, hinsert, -, hwrite, huser, -⟩ := two_pages true true
  refine ⟨tr, s, s', hrun, hinsert, ?_⟩
  exact (pageInsert_rights_iff hrun rfl (by decide) hinsert).2 fun _ =>
    ⟨fun _ => hwrite, fun _ => huser⟩

/-- **If the first page was not, the second cannot be written to or used**, although `page_insert`
was asked for that and returned 0. -/
theorem not_rightsTake_second : ∃ (tr : List (Vmm × MapCall)) (s s' : Vmm),
    FlagRun (fun d => d = 0) tr s ∧ pageInsert s (pm2va 0) 6 0x401000 true true = .ok (0, s') ∧
      (∃ q, s'.translate (pm2va 0) 0x401000 = some q ∧ q.write = false ∧ q.user = false) ∧
      ¬ RightsTake (fun d => d = 0) s 0 0x401000 true true s' := by
  obtain ⟨tr, s, s', hrun, hinsert, -, -, -, q, hq, hwrite, huser⟩ := two_pages false false
  refine ⟨tr, s, s', hrun, hinsert, ⟨q, hq, hwrite, huser⟩, fun htake => ?_⟩
  obtain ⟨q', hq', hwrite', -⟩ := htake.page
  obtain rfl : q = q' := Option.some.inj (hq.symm.trans hq')
  exact nomatch hwrite.symm.trans hwrite'

end JinxOS
