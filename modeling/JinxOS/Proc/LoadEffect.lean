import JinxOS.Proc.Load

/-!
# What loading a program does to page tables

`region_alloc` maps the pages of a region to fresh pages, and panics if one of them is mapped
already. So the bytes that `load_icode` writes afterwards go to pages that are no tables, whatever
the image says.

* `Fills` — the effect of mapping fresh pages in a directory, closed under composition;
* `Placed` — the same, and the pages are different from each other and from all pages in use, whose
  bytes stay as they are;
* `regionAlloc_cases` — the code has this effect, unless an assertion fails or physical memory is
  exhausted, and when it does.
-/

namespace JinxOS

open Function (update update_of_ne)

/-! ## Pages for data -/

/-- A page that is in use, but not for page tables. -/
structure Data (dirs : Nat → Prop) (s : Vmm) (t : Tables) (f : Nat) : Prop where
  lt : f < s.physmap.bits
  used : s.physmap.has f = true
  not_dir : ¬ dirs f
  unused : t.Unused Pte.frame f

variable {dirs : Nat → Prop} {shared : Fin 1024 → Prop} {s s' s'' : Vmm} {t t' t'' : Tables}
  {d : Nat} {cover cover' : Nat → Prop}

section
variable {f x : Nat} {write user : Bool}

theorem Data.grows (h : Data dirs s t f) (hg : Grows dirs shared d write user cover s t s' t') :
    Data dirs s' t' f where
  lt := hg.same.bits.symm ▸ h.lt
  used := hg.marks f h.used
  not_dir := h.not_dir
  unused d' i p hp := by
    by_cases hd : d' = d
    · subst hd
      cases hold : t.dir d' i with
      | none =>
        rintro rfl
        have hclear := hg.fresh i p hold hp
        rw [h.used] at hclear
        exact nomatch hclear
      | some q =>
        rw [hg.dir_old i (hold ▸ Option.some_ne_none q)] at hp
        exact h.unused d' i p hp
    · rw [hg.dir_other d' i hd] at hp
      exact h.unused d' i p hp

theorem entry_setByte {g : Nat} (hf : f < 2 ^ 18) (hg : g < 2 ^ 18) (hne : g ≠ f)
    (hx : pm2va f ≤ x) (hx' : x < pm2va f + pgSize) (b : UInt8) (i : Fin 1024) :
    (s.setMem (update s.mem x b)).entry (slot g i) = s.entry (slot g i) := by
  have hload : ByteMem.load (update s.mem x b) (slot g i) = s.mem.load (slot g i) := by
    refine load_congr fun y hy hy' => update_of_ne ?_ b s.mem
    rintro rfl
    rw [slot_eq hg] at hy hy'
    rw [pm2va_eq hf] at hx hx'
    rw [pgSize] at hx'
    omega
  rw [Vmm.entry, Vmm.mem, Vmm.setMem, hload, Vmm.entry]

/-- **Data does not affect page tables.** -/
theorem PageTables.setByte (h : PageTables dirs shared s t) (hf : Data dirs s t f)
    (hx : pm2va f ≤ x) (hx' : x < pm2va f + pgSize) (b : UInt8) :
    PageTables dirs shared (s.setMem (update s.mem x b)) t := by
  have hlt : f < 2 ^ 18 := lt_of_lt_of_le hf.lt h.bits_le
  refine ⟨h.wf, h.bits_le, h.dir_used, h.tab_used, h.dir_none, fun d hd i => ?_,
    fun d i p hp j => ?_, h.separate⟩
  · have hne : d ≠ f := by
      rintro rfl
      exact hf.not_dir hd
    rw [entry_setByte hlt (h.dir_lt hd) hne hx hx']
    exact h.dir_eq d hd i
  · rw [entry_setByte hlt (h.tab_lt hp) (hf.unused d i p hp) hx hx']
    exact h.tab_eq d i p hp j

theorem PageTables.alloc (h : PageTables dirs shared s t) (hf : f < s.physmap.bits)
    (hfree : s.physmap.has f = false) {s1 : Vmm}
    (hs : s1 = { s with physmap := s.physmap.mark f }.setMem (s.mem.memset (pm2va f) 0 pgSize)) :
    Grows dirs shared d write user cover s t s1 t ∧ Data dirs s1 t f := by
  have hlt : f < 2 ^ 18 := lt_of_lt_of_le hf h.bits_le
  have hhas : ∀ k, s1.physmap.has k = (s.physmap.has k || decide (f = k)) := by
    intro k
    rw [hs]
    exact Bitmap.has_mark (h.wf.lt hf)
  have hmark : ∀ k, s.physmap.has k = true → s1.physmap.has k = true := by
    intro k hk
    rw [hhas, hk, Bool.true_or]
  have hentry : ∀ {g : Nat} (i : Fin 1024), g < 2 ^ 18 → g ≠ f →
      s1.entry (slot g i) = s.entry (slot g i) := by
    intro g i hg hne
    rw [hs]
    exact entry_clear_of_ne hlt hg hne
  have hsame : SameVmm s s1 := by
    have hfirst : SameVmm s { s with physmap := s.physmap.mark f } :=
      ⟨rfl, rfl, rfl, rfl⟩
    rw [hs]
    exact hfirst.trans (.setMem _)
  have hwf : s1.physmap.Wf := by
    rw [hs]
    exact h.wf.mark hf
  have htables : PageTables dirs shared s1 t := by
    refine ⟨hwf, hsame.bits.symm ▸ h.bits_le, fun d hd => ?_, fun d i p hp => ?_, h.dir_none,
      fun d hd i => ?_, fun d i p hp j => ?_, h.separate⟩
    · rw [hsame.bits]
      exact ⟨(h.dir_used d hd).1, hmark _ (h.dir_used d hd).2⟩
    · obtain ⟨hp1, hp2, hp3⟩ := h.tab_used d i p hp
      rw [hsame.bits]
      exact ⟨hp1, hmark _ hp2, hp3⟩
    · have hne : d ≠ f := fun he => h.not_dir hfree (he ▸ hd)
      rw [hentry i (h.dir_lt hd) hne]
      exact h.dir_eq d hd i
    · rw [hentry j (h.tab_lt hp) (h.unused hfree d i p hp)]
      exact h.tab_eq d i p hp j
  refine ⟨⟨htables, hsame, fun _ _ _ _ => rfl, fun _ _ _ => rfl, fun _ _ => rfl, hmark,
    fun _ _ hnone hsome => (nomatch hnone.symm.trans hsome),
    fun _ _ hnone hsome => (nomatch hnone.symm.trans hsome)⟩, hsame.bits.symm ▸ hf, ?_,
    h.not_dir hfree, h.unused hfree⟩
  rw [hhas]
  simp

/-! The bytes of pages for data.  Page tables are written in other pages. -/

/-- The bytes of the page `f` are the same in two memories. -/
def SamePage (f : Nat) (m m' : ByteMem) : Prop :=
  ∀ y, pm2va f ≤ y → y < pm2va f + pgSize → m' y = m y

theorem SamePage.trans {m m' m'' : ByteMem} (h : SamePage f m m') (h' : SamePage f m' m'') :
    SamePage f m m'' :=
  fun y hy hy' => (h' y hy hy').trans (h y hy hy')

theorem page_apart {g y : Nat} (hf : f < 2 ^ 18) (hg : g < 2 ^ 18) (hne : f ≠ g) (hy : pm2va f ≤ y)
    (hy' : y < pm2va f + pgSize) : y < pm2va g ∨ pm2va g + pgSize ≤ y := by
  rw [pm2va_eq hf, pgSize] at hy'
  rw [pm2va_eq hf] at hy
  rw [pm2va_eq hg, pgSize]
  omega

theorem SamePage.setByte {g : Nat} (hf : f < 2 ^ 18) (hg : g < 2 ^ 18) (hne : f ≠ g)
    (hx : pm2va g ≤ x) (hx' : x < pm2va g + pgSize) (m : ByteMem) (b : UInt8) :
    SamePage f m (update m x b) := by
  intro y hy hy'
  refine update_of_ne ?_ b m
  rintro rfl
  have := page_apart hf hg hne hy hy'
  omega

theorem Vmm.mem_setMem (s : Vmm) (m : ByteMem) : (s.setMem m).mem = m := rfl

theorem SamePage.clear {g : Nat} (hf : f < 2 ^ 18) (hg : g < 2 ^ 18) (hne : f ≠ g) (m : ByteMem)
    (s : Vmm) : SamePage f m (s.setMem (m.memset (pm2va g) 0 pgSize)).mem := by
  intro y hy hy'
  rw [Vmm.mem_setMem]
  refine ByteMem.memset_of_not_mem ?_ ?_
  · rw [pm2va_eq hg, pgSize]
    omega
  · have := page_apart hf hg hne hy hy'
    omega

theorem SamePage.setEntry {g : Nat} (hf : f < 2 ^ 18) (hg : g < 2 ^ 18) (hne : f ≠ g) (s : Vmm)
    (i : Fin 1024) (e : Pte) : SamePage f s.mem (s.setEntry (slot g i) e).mem := by
  intro y hy hy'
  refine store_apply ?_
  have hapart := page_apart hf hg hne hy hy'
  rw [pm2va_eq hg, pgSize] at hapart
  rw [slot_eq hg]
  omega

section
variable (h : PageTables dirs shared s t) (hd : dirs d) (hf : Data dirs s t f)
include h hd hf

/-- `pgdir_walk` writes to a page that was not in use and to the directory. -/
theorem PageTables.walk_samePage {va pg : Nat}
    (hrun : pgdirWalk s (pm2va d) va write user true = .ok (pg, s')) : SamePage f s.mem s'.mem := by
  have hlt : f < 2 ^ 18 := lt_of_lt_of_le hf.lt h.bits_le
  rw [pgdirWalk] at hrun
  split at hrun
  · obtain ⟨s1, halloc, hrun⟩ := of_bind hrun
    cases hrun
    rcases pgdirAlloc_cases h.wf (entryAddr (pm2va d) (pdx va)) write user with
      ⟨hpanic, -⟩ | ⟨g, e, hg, hfree, hok⟩
    · cases halloc.symm.trans hpanic
    · obtain rfl := Except.ok.inj (halloc.symm.trans hok)
      have hne : f ≠ g := by
        rintro rfl
        cases hf.used.symm.trans hfree
      have hned : f ≠ d := by
        rintro rfl
        exact hf.not_dir hd
      rw [Vmm.withTable]
      exact (SamePage.clear hlt (lt_of_lt_of_le hg h.bits_le) hne s.mem _).trans
        (SamePage.setEntry hlt (h.dir_lt hd) hned _ (pdx va) _)
  · cases hrun
    exact fun _ _ _ => rfl

theorem PageTables.insert_samePage {va pno r : Nat}
    (hrun : pageInsert s (pm2va d) pno va write user = .ok (r, s')) : SamePage f s.mem s'.mem := by
  have hlt : f < 2 ^ 18 := lt_of_lt_of_le hf.lt h.bits_le
  rw [pageInsert] at hrun
  obtain ⟨-, -, hrun⟩ := of_bind hrun
  obtain ⟨⟨pg, s1⟩, hwalk, hrun⟩ := of_bind hrun
  have hsame := h.walk_samePage hd hf hwalk
  rcases h.walk hd va write user with ⟨hpanic, -⟩ | ⟨s2, t2, p, hok, hw⟩
  · cases hwalk.symm.trans hpanic
  obtain ⟨rfl, rfl⟩ := Prod.mk.inj (Except.ok.inj (hwalk.symm.trans hok))
  dsimp only at hrun
  split at hrun
  · cases hrun
    exact hsame
  · obtain ⟨-, -, hrun⟩ := of_bind hrun
    cases hrun
    have hne : f ≠ p.frame := by
      rintro rfl
      cases hold : t.dir d (pdx va) with
      | none => cases hf.used.symm.trans (hw.fresh hold)
      | some q =>
        have ht := hw.old (hold ▸ Option.some_ne_none q)
        exact hf.unused d _ p (ht ▸ hw.entry) rfl
    exact hsame.trans (SamePage.setEntry hlt (hw.tables.tab_lt hw.entry) hne _ (ptx va) _)

end

end

/-! ## Fresh pages in a directory -/

/-- The addresses in `cover` were not mapped, and are mapped to pages for data. -/
structure Fills (dirs : Nat → Prop) (shared : Fin 1024 → Prop) (d : Nat) (cover : Nat → Prop)
    (s : Vmm) (t : Tables) (s' : Vmm) (t' : Tables) : Prop
    extends Grows dirs shared d true true cover s t s' t' where
  /-- They were not mapped. -/
  before : ∀ x, x < 2 ^ 32 → cover x → TablesAt t d x = none
  /-- They are mapped. -/
  after : ∀ x, x < 2 ^ 32 → cover x →
    ∃ q, TablesAt t' d x = some q ∧ q.2.write = true ∧ Data dirs s' t' q.2.frame

namespace Fills

theorem refl (h : PageTables dirs shared s t) (hnone : ∀ x, ¬ cover x) :
    Fills dirs shared d cover s t s t where
  toGrows := .refl h
  before x _ hx := absurd hx (hnone x)
  after x _ hx := absurd hx (hnone x)

section
variable (h : Fills dirs shared d cover s t s' t')
include h

theorem trans (h' : Fills dirs shared d cover' s' t' s'' t'') :
    Fills dirs shared d (fun x => cover x ∨ cover' x) s t s'' t'' where
  toGrows := h.toGrows.trans h'.toGrows
  before x hx hc := by
    by_cases hcov : cover x
    · exact h.before x hx hcov
    · rw [← h.rest d x hx (.inl hcov)]
      exact h'.before x hx (hc.resolve_left hcov)
  after x hx hc := by
    by_cases hcov : cover' x
    · exact h'.after x hx hcov
    · obtain ⟨q, hq, hwrite, hdata⟩ := h.after x hx (hc.resolve_right hcov)
      exact ⟨q, (h'.rest d x hx (.inl hcov)).trans hq, hwrite, hdata.grows h'.toGrows⟩

theorem congr (hc : ∀ x, x < 2 ^ 32 → (cover' x ↔ cover x)) :
    Fills dirs shared d cover' s t s' t' where
  toGrows := h.toGrows.congr fun x hx => (hc x hx).2
  before x hx hcov := h.before x hx ((hc x hx).1 hcov)
  after x hx hcov := h.after x hx ((hc x hx).1 hcov)

theorem setByte {f x : Nat} (hf : Data dirs s' t' f) (hx : pm2va f ≤ x) (hx' : x < pm2va f + pgSize)
    (b : UInt8) : Fills dirs shared d cover s t (s'.setMem (update s'.mem x b)) t' where
  tables := h.tables.setByte hf hx hx' b
  same := h.same.trans (.setMem _)
  rest := h.rest
  dir_other := h.dir_other
  dir_old := h.dir_old
  marks := h.marks
  fresh := h.fresh
  rights := h.rights
  before := h.before
  after y hy hc := by
    obtain ⟨q, hq, hwrite, hdata⟩ := h.after y hy hc
    exact ⟨q, hq, hwrite, hdata.lt, hdata.used, hdata.not_dir, hdata.unused⟩

end

end Fills

/-- The pages are different from each other and from all pages in use, and of those that are in use
for data nothing has changed. -/
structure Placed (dirs : Nat → Prop) (shared : Fin 1024 → Prop) (d : Nat) (cover : Nat → Prop)
    (s : Vmm) (t : Tables) (s' : Vmm) (t' : Tables) : Prop
    extends Fills dirs shared d cover s t s' t' where
  /-- The pages were not in use. -/
  unmarked : ∀ x q, x < 2 ^ 32 → cover x → TablesAt t' d x = some q →
    s.physmap.has q.2.frame = false
  /-- They are different. -/
  inj : ∀ x y q q', x < 2 ^ 32 → y < 2 ^ 32 → cover x → cover y → TablesAt t' d x = some q →
    TablesAt t' d y = some q' → q.2.frame = q'.2.frame → x / 4096 = y / 4096
  /-- Other data is the same. -/
  keeps : ∀ f, Data dirs s t f → SamePage f s.mem s'.mem

namespace Placed

theorem refl (h : PageTables dirs shared s t) (hnone : ∀ x, ¬ cover x) :
    Placed dirs shared d cover s t s t where
  toFills := .refl h hnone
  unmarked x _ _ hx := absurd hx (hnone x)
  inj x _ _ _ _ _ hx := absurd hx (hnone x)
  keeps _ _ _ _ _ := rfl

theorem trans (h : Placed dirs shared d cover s t s' t')
    (h' : Placed dirs shared d cover' s' t' s'' t'') :
    Placed dirs shared d (fun x => cover x ∨ cover' x) s t s'' t'' where
  toFills := h.toFills.trans h'.toFills
  unmarked x q hx hc hq := by
    by_cases hcov : cover' x
    · have hfree := h'.unmarked x q hx hcov hq
      by_contra hused
      rw [h.marks _ (by simpa using hused)] at hfree
      exact nomatch hfree
    · rw [h'.rest d x hx (.inl hcov)] at hq
      exact h.unmarked x q hx (hc.resolve_right hcov) hq
  inj x y q q' hx hy hcx hcy hq hq' hframe := by
    -- a page of the first mapping is in use when the second one takes its pages
    have hmixed : ∀ {x y : Nat} {q q' : Pte × Pte}, x < 2 ^ 32 → y < 2 ^ 32 → cover x → ¬ cover' x →
        cover' y → TablesAt t'' d x = some q → TablesAt t'' d y = some q' →
        q.2.frame ≠ q'.2.frame := by
      intro x y q q' hx hy hcx hnx hcy hq hq' he
      rw [h'.rest d x hx (.inl hnx)] at hq
      obtain ⟨q1, hq1, -, hdata⟩ := h.after x hx hcx
      obtain rfl : q1 = q := Option.some.inj (hq1.symm.trans hq)
      have hfree := h'.unmarked y q' hy hcy hq'
      rw [← he, hdata.used] at hfree
      exact nomatch hfree
    by_cases hx' : cover' x
    · by_cases hy' : cover' y
      · exact h'.inj x y q q' hx hy hx' hy' hq hq' hframe
      · exact absurd hframe.symm (hmixed hy hx (hcy.resolve_right hy') hy' hx' hq' hq)
    · by_cases hy' : cover' y
      · exact absurd hframe (hmixed hx hy (hcx.resolve_right hx') hx' hy' hq hq')
      · rw [h'.rest d x hx (.inl hx')] at hq
        rw [h'.rest d y hy (.inl hy')] at hq'
        exact h.inj x y q q' hx hy (hcx.resolve_right hx') (hcy.resolve_right hy') hq hq' hframe
  keeps f hf := (h.keeps f hf).trans (h'.keeps f (hf.grows h.toGrows))

theorem congr (h : Placed dirs shared d cover s t s' t')
    (hc : ∀ x, x < 2 ^ 32 → (cover' x ↔ cover x)) : Placed dirs shared d cover' s t s' t' where
  toFills := h.toFills.congr hc
  unmarked x q hx hcov := h.unmarked x q hx ((hc x hx).1 hcov)
  inj x y q q' hx hy hcx hcy := h.inj x y q q' hx hy ((hc x hx).1 hcx) ((hc y hy).1 hcy)
  keeps := h.keeps

theorem setByte (h : Placed dirs shared d cover s t s' t') {f x : Nat} (hf : Data dirs s' t' f)
    (hfree : s.physmap.has f = false) (hx : pm2va f ≤ x) (hx' : x < pm2va f + pgSize) (b : UInt8) :
    Placed dirs shared d cover s t (s'.setMem (update s'.mem x b)) t' where
  toFills := h.toFills.setByte hf hx hx' b
  unmarked := h.unmarked
  inj := h.inj
  keeps g hg := by
    have hne : g ≠ f := by
      rintro rfl
      exact nomatch hg.used.symm.trans hfree
    have hlt : g < 2 ^ 18 := lt_of_lt_of_le (hg.grows h.toGrows).lt h.tables.bits_le
    exact (h.keeps g hg).trans
      (SamePage.setByte hlt (lt_of_lt_of_le hf.lt h.tables.bits_le) hne hx hx' s'.mem b)

end Placed

/-! ## `region_alloc` -/

/-- One iteration fails only if the page is mapped or physical memory is exhausted. -/
theorem regionPage_cases (h : PageTables dirs shared s t) (hd : dirs d) {i : Nat}
    (hi : i < 2 ^ 32) :
    (regionPage (pm2va d) i s = .error ppPanic ∧ ∀ n, ¬ s.physmap.Free (n + 2)) ∨
    (TablesAt t d i ≠ none ∧ regionPage (pm2va d) i s = .error (.assertFailed "!pg->present")) ∨
    ∃ s' t', regionPage (pm2va d) i s = .ok s' ∧
      Placed dirs shared d (fun x => x / 4096 = i / 4096) s t s' t' ∧
      ∀ n, s.physmap.Free (n + 2) → s'.physmap.Free n := by
  rw [regionPage]
  rcases ppAlloc_cases h.wf with ⟨hpanic, hfull⟩ | ⟨f, hf, hfree, hrun⟩
  · exact .inl ⟨by rw [hpanic, error_bind], fun n hn => hn.not_full hfull⟩
  · have hlt : f < 2 ^ 18 := lt_of_lt_of_le hf h.bits_le
    generalize hs1 : { s with physmap := s.physmap.mark f }.setMem
      (s.mem.memset (pm2va f) 0 pgSize) = s1 at hrun
    obtain ⟨hgrows, hdata⟩ : Grows dirs shared d true true (fun _ => False) s t s1 t ∧
      Data dirs s1 t f := h.alloc hf hfree hs1.symm
    have hone : ∀ n, s.physmap.Free (n + 1) → s1.physmap.Free n := by
      intro n hn
      refine hn.of_marked (m := f) hgrows.same.bits fun k hk => ?_
      rw [← hs1] at hk
      have hk' := (Bitmap.has_mark (h.wf.lt hf)).symm.trans hk
      rw [Bool.or_eq_true, decide_eq_true_eq] at hk'
      exact hk'.imp_right Eq.symm
    rcases hgrows.tables.pageInsert_cases hd f hi true true with
      ⟨hpanic, hfull⟩ | ⟨hmapped, hfail⟩ | ⟨hnone, s', t', hins, hmaps⟩
    · refine .inl ⟨?_, fun n hn => (hone (n + 1) hn).not_full hfull⟩
      rw [hrun, ok_bind]
      dsimp only
      rw [hpanic, error_bind]
    · refine .inr (.inl ⟨hmapped, ?_⟩)
      rw [hrun, ok_bind]
      dsimp only
      rw [hfail, error_bind]
    · have hcovered : ∀ x, x < 2 ^ 32 → x / 4096 = i / 4096 →
          ∃ q, TablesAt t' d x = some q ∧ q.2.frame = f ∧ q.2.write = true := by
        intro x hx hc
        obtain ⟨q, hq, hframe, hwrite, -⟩ := hmaps.covered x hx hc
        rw [Nat.mod_eq_of_lt (lt_trans hlt (by decide : 2 ^ 18 < 2 ^ 20))] at hframe
        exact ⟨q, hq, hframe, hwrite⟩
      have hfills : Fills dirs shared d (fun x => x / 4096 = i / 4096) s t s' t' := by
        refine ⟨(hgrows.trans hmaps.toGrows).congr fun x _ hc => hc.resolve_left id,
          fun x hx hc => ?_, fun x hx hc => ?_⟩
        · obtain ⟨hpdx, hptx⟩ := (page_eq_iff hx hi).2 hc
          rw [TablesAt, hpdx, hptx]
          exact hnone
        · obtain ⟨q, hq, hframe, hwrite⟩ := hcovered x hx hc
          exact ⟨q, hq, hwrite, hframe.symm ▸ hdata.grows hmaps.toGrows⟩
      refine .inr (.inr ⟨s', t', ?_, ⟨hfills, fun x q hx hc hq => ?_,
        fun x y _ _ _ _ hcx hcy _ _ _ => hcx.trans hcy.symm, fun g hg => ?_⟩, fun n hn => ?_⟩)
      · rw [hrun, ok_bind]
        dsimp only
        rw [hins, ok_bind]
        rfl
      · obtain ⟨q', hq', hframe, -⟩ := hcovered x hx hc
        obtain rfl : q = q' := Option.some.inj (hq.symm.trans hq')
        rw [hframe]
        exact hfree
      · have hne : g ≠ f := by
          rintro rfl
          cases hg.used.symm.trans hfree
        have hclear : SamePage g s.mem s1.mem := by
          rw [← hs1]
          exact SamePage.clear (lt_of_lt_of_le hg.lt h.bits_le) hlt hne s.mem _
        exact hclear.trans (hgrows.tables.insert_samePage hd (hg.grows hgrows) hins)
      · exact hmaps.free_one (fun x hx hc => ((page_eq_iff hx hi).2 hc).1) (hone (n + 1) hn)

theorem regionLoop_cases (hd : dirs d) {stop : Nat} (hstop : stop < 2 ^ 32) :
    ∀ (n fuel i : Nat) {s : Vmm} {t : Tables}, PageTables dirs shared s t → i % 4096 = 0 →
      i + 4096 * n = stop → n < fuel →
      (regionLoop (pm2va d) stop fuel i s = .error ppPanic ∧ ∀ m, ¬ s.physmap.Free (m + 2 * n)) ∨
      ((∃ x, i ≤ x ∧ x < stop ∧ TablesAt t d x ≠ none) ∧
        regionLoop (pm2va d) stop fuel i s = .error (.assertFailed "!pg->present")) ∨
      ∃ s' t', regionLoop (pm2va d) stop fuel i s = .ok s' ∧
        Placed dirs shared d (fun x => i ≤ x ∧ x < stop) s t s' t' ∧
        ∀ m, s.physmap.Free (m + 2 * n) → s'.physmap.Free m := by
  intro n
  induction n with
  | zero =>
    intro fuel i s t h hmod hend hfuel
    obtain ⟨fuel, rfl⟩ := Nat.exists_eq_add_of_lt hfuel
    refine .inr (.inr ⟨s, t, ?_, .refl h fun x hx => ?_, fun m hm => hm⟩)
    · rw [regionLoop, if_neg (by omega)]
    · omega
  | succ n ih =>
    intro fuel i s t h hmod hend hfuel
    obtain ⟨fuel, rfl⟩ := Nat.exists_eq_succ_of_ne_zero (Nat.ne_zero_of_lt hfuel)
    rw [regionLoop, if_pos (by omega), Word.add_eq (by rw [pgSize]; omega)]
    rcases regionPage_cases h hd (by omega : i < 2 ^ 32) with
      ⟨hrun, hfull⟩ | ⟨hmapped, hrun⟩ | ⟨s1, t1, hrun, hplaced, hfree⟩
    · exact .inl ⟨by rw [hrun, error_bind], fun m => hfull (m + 2 * n)⟩
    · exact .inr (.inl ⟨⟨i, le_rfl, by omega, hmapped⟩, by rw [hrun, error_bind]⟩)
    · rw [hrun, ok_bind]
      rcases ih fuel (i + 4096) hplaced.tables (by omega) (by omega) (by omega) with
        ⟨hrun', hfull⟩ | ⟨⟨x, hx, hx', hmapped⟩, hrun'⟩ | ⟨s', t', hrun', hplaced', hfree'⟩
      · exact .inl ⟨hrun', fun m hm => hfull m (hfree _ hm)⟩
      · refine .inr (.inl ⟨⟨x, by omega, hx', ?_⟩, hrun'⟩)
        rwa [hplaced.rest d x (by omega) (.inl (by omega))] at hmapped
      · refine .inr (.inr ⟨s', t', hrun', (hplaced.trans hplaced').congr fun x _ => ?_,
          fun m hm => hfree' m (hfree _ hm)⟩)
        omega

/-- The addresses of the pages of a region. -/
def RegionCover (va len x : Nat) : Prop := va / 4096 ≤ x / 4096 ∧ x / 4096 * 4096 < va + len

/-- The number of these pages. -/
def regionPages (va len : Nat) : Nat := (va + len + 4095) / 4096 - va / 4096

theorem roundUp_word (a : Nat) : roundUp a pgSize = (a + 4095) % 2 ^ 32 / 4096 * 4096 := by
  have hsub : Word.sub (Word.add a pgSize) 1 = (a + 4095) % 2 ^ 32 := by
    rw [Word.sub, Word.add, pgSize]
    omega
  rw [roundUp, hsub, roundDown_eq (Nat.mod_lt _ (by decide)), pgSize]
  omega

/-- What `region_alloc` asserts about its arguments: the region is not at the null pointer, it is
not empty, and its end does not wrap around when it is rounded up. -/
def RegionOk (va len : Nat) : Prop := 0 < va ∧ 0 < len ∧ va + len + 4095 < 2 ^ 32

theorem regionCover_iff {va len x : Nat} : RegionCover va len x ↔
    va / 4096 * 4096 ≤ x ∧ x < (va + len + 4095) / 4096 * 4096 := by
  rw [RegionCover]
  omega

theorem RegionOk.lt {va len x : Nat} (h : RegionOk va len) (hx : RegionCover va len x) :
    x < 2 ^ 32 := by
  obtain ⟨-, -, hend⟩ := h
  rw [RegionCover] at hx
  omega

theorem regionAlloc_eq (s : Vmm) (pd : Nat) {va len : Nat} (h : RegionOk va len) :
    regionAlloc s pd va len =
      regionLoop pd ((va + len + 4095) / 4096 * 4096) loopFuel (va / 4096 * 4096) s := by
  obtain ⟨hpos, hlen, hend⟩ := h
  have hbeg : roundDown va pgSize = va / 4096 * 4096 := by
    rw [roundDown_eq (by omega), pgSize]
    omega
  have hlt : va / 4096 * 4096 < (va + len + 4095) / 4096 * 4096 := by
    clear * - hlen
    omega
  rw [regionAlloc, bne_iff_ne.2 (Nat.ne_of_gt hpos), assert_true, ok_bind, Word.add_eq,
    decide_eq_true (by omega : va < va + len), assert_true, ok_bind, hbeg, roundUp_word,
    Nat.mod_eq_of_lt hend]
  dsimp only
  rw [decide_eq_true hlt, assert_true, ok_bind]

theorem regionAlloc_error (s : Vmm) (pd : Nat) {va len : Nat} (hva : va < 2 ^ 32)
    (hlen : len < 2 ^ 32) (h : ¬ RegionOk va len) :
    ∃ e, regionAlloc s pd va len = .error (.assertFailed e) := by
  rw [regionAlloc]
  by_cases hpos : va = 0
  · exact ⟨_, by rw [hpos]; rfl⟩
  rw [bne_iff_ne.2 hpos, assert_true, ok_bind]
  by_cases hwrap : va < Word.add va len
  swap
  · exact ⟨_, by rw [decide_eq_false hwrap]; rfl⟩
  have hend : va + len < 2 ^ 32 := by
    rw [Word.add] at hwrap
    omega
  have hadd : Word.add va len = va + len := Word.add_eq hend
  -- the end of the region is rounded up to the null pointer
  have hzero : (va + len + 4095) % 2 ^ 32 / 4096 * 4096 = 0 := by
    rw [RegionOk] at h
    omega
  refine ⟨"beg < end", ?_⟩
  rw [decide_eq_true hwrap, assert_true, ok_bind, hadd, roundUp_word, hzero]
  dsimp only
  rw [decide_eq_false (Nat.not_lt_zero _)]
  rfl

/-- **`region_alloc`** maps the pages of a region to fresh pages, unless one of them is mapped. -/
theorem regionAlloc_cases (h : PageTables dirs shared s t) (hd : dirs d) {va len : Nat}
    (hva : va < 2 ^ 32) (hlen : len < 2 ^ 32) : (regionAlloc s (pm2va d) va len = .error ppPanic ∧
      ∀ m, ¬ s.physmap.Free (m + 2 * regionPages va len)) ∨
    (¬ (RegionOk va len ∧ ∀ x, RegionCover va len x → TablesAt t d x = none) ∧
      ∃ e, regionAlloc s (pm2va d) va len = .error (.assertFailed e) ∧
        (RegionOk va len → e = "!pg->present")) ∨
    (RegionOk va len ∧ ∃ s' t', regionAlloc s (pm2va d) va len = .ok s' ∧
      Placed dirs shared d (RegionCover va len) s t s' t' ∧
      ∀ m, s.physmap.Free (m + 2 * regionPages va len) → s'.physmap.Free m) := by
  by_cases hok : RegionOk va len
  swap
  · obtain ⟨e, hrun⟩ := regionAlloc_error s (pm2va d) hva hlen hok
    exact .inr (.inl ⟨fun hboth => hok hboth.1, e, hrun, fun hok' => absurd hok' hok⟩)
  obtain ⟨-, hpos, hend⟩ := id hok
  have hpages : va / 4096 * 4096 + 4096 * regionPages va len = (va + len + 4095) / 4096 * 4096 := by
    rw [regionPages]
    omega
  have hfuel : regionPages va len < loopFuel := by
    rw [regionPages, loopFuel]
    omega
  rw [regionAlloc_eq s _ hok]
  rcases regionLoop_cases hd (by omega) _ loopFuel _ h (Nat.mul_mod_left ..) hpages hfuel with
    hfull | ⟨⟨x, hx, hx', hmapped⟩, hrun⟩ | ⟨s', t', hrun, hplaced, hfree⟩
  · exact .inl hfull
  · refine .inr (.inl ⟨fun hboth => ?_, _, hrun, fun _ => rfl⟩)
    exact hmapped (hboth.2 x (regionCover_iff.2 ⟨hx, hx'⟩))
  · exact .inr (.inr ⟨hok, s', t', hrun, hplaced.congr fun x _ => regionCover_iff, hfree⟩)

end JinxOS
