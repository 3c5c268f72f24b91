import JinxOS.Lib.TwoLevel
import JinxOS.Mem.Vmm

/-!
# The page tables as a two-level table

Memory holds page directories and page tables, pages of 1024 entries each.  `PageTables` says that
they represent a `TwoLevel` store: the directories are the pages in a set `dirs`, an entry that is
present names the table at its `addr`, and the entries of the tables are the leaves.  All these
pages are marked in `physmap`, so that a page that `pp_alloc` hands out is none of them.

* `PageTables.walk` — `pgdir_walk` installs an empty table, or finds one;
* `PageTables.setEntry` — an assignment to an entry of a table writes a leaf;
* `PageTables.translate_eq` — the hardware looks up what is represented.

Together they give `PageTables.map`, the step of `page_insert` and of the loop of `boot_map`.
-/

namespace JinxOS

/-! ## Entries in memory -/

variable {f x va bytes i : Nat} {s s' : Vmm}

theorem Pte.encode_lt (e : Pte) : e.encode < 2 ^ 32 := by
  have hp := e.present.toNat_lt
  have hw := e.write.toNat_lt
  have hu := e.user.toNat_lt
  rw [Pte.encode]
  omega

theorem toNat_beq_one (b : Bool) : (b.toNat == 1) = b := by
  cases b <;> rfl

theorem Pte.decode_encode (e : Pte) : Pte.decode e.encode = e := by
  have hp := e.present.toNat_lt
  have hw := e.write.toNat_lt
  have hu := e.user.toNat_lt
  have hrest : BitVec.ofNat 9 (e.encode / 8) = e.rest := by
    refine BitVec.eq_of_toNat_eq ?_
    rw [BitVec.toNat_ofNat, Pte.encode]
    omega
  have haddr : BitVec.ofNat 20 (e.encode / 4096) = e.addr := by
    refine BitVec.eq_of_toNat_eq ?_
    rw [BitVec.toNat_ofNat, Pte.encode]
    omega
  have hpresent : e.encode % 2 = e.present.toNat := by
    rw [Pte.encode]
    omega
  have hwrite : e.encode / 2 % 2 = e.write.toNat := by
    rw [Pte.encode]
    omega
  have huser : e.encode / 4 % 2 = e.user.toNat := by
    rw [Pte.encode]
    omega
  rw [Pte.decode, hpresent, hwrite, huser, hrest, haddr, toNat_beq_one, toNat_beq_one,
    toNat_beq_one]

/-- The entry, if it is present. -/
def Pte.here (e : Pte) : Option Pte := if e.present then some e else none

theorem Pte.here_some {e : Pte} (h : e.present = true) : e.here = some e := if_pos h

theorem Pte.here_eq_some {e p : Pte} (h : e.here = some p) : e = p ∧ p.present = true := by
  rw [Pte.here] at h
  split at h
  · next hpresent =>
    cases h
    exact ⟨rfl, hpresent⟩
  · exact nomatch h

theorem Pte.here_eq_none {e : Pte} : e.here = none ↔ e.present = false := by
  cases h : e.present <;> simp [Pte.here, h]

namespace Vmm

variable {s : Vmm} {a b : Nat} {e : Pte}

theorem entry_setEntry_same : (s.setEntry a e).entry a = e := by
  rw [entry, mem, setEntry, setMem, load_store_same e.encode_lt, Pte.decode_encode]

theorem entry_setEntry_of_apart (h : b + 4 ≤ a ∨ a + 4 ≤ b) :
    (s.setEntry a e).entry b = s.entry b := by
  rw [entry, mem, setEntry, setMem, load_store_of_disjoint h, entry]

end Vmm

/-- The address of an entry of the table in a physical page. -/
def slot (f : Nat) (i : Fin 1024) : Nat := entryAddr (pm2va f) i

theorem pm2va_eq (h : f < 2 ^ 18) : pm2va f = 4096 * f + 0xC0000000 := by
  have hmul : Word.mul f pgSize = 4096 * f := by
    rw [pgSize, Word.mul_eq, Nat.mul_comm]
  rw [pm2va, hmul, kaddr, Word.add_eq]

theorem slot_eq (h : f < 2 ^ 18) (i : Fin 1024) : slot f i = 4096 * f + 0xC0000000 + 4 * i.val := by
  rw [slot, entryAddr, pm2va_eq h, Word.add_eq]

theorem slot_apart {f' : Nat} (hf : f < 2 ^ 18) (hf' : f' < 2 ^ 18) {i i' : Fin 1024}
    (h : f' ≠ f ∨ i' ≠ i) : slot f' i' + 4 ≤ slot f i ∨ slot f i + 4 ≤ slot f' i' := by
  rw [slot_eq hf, slot_eq hf']
  omega

section
variable {s : Vmm} {f f' : Nat} {i i' : Fin 1024}

theorem entry_setEntry_slot {e : Pte} (hf : f < 2 ^ 18) (hf' : f' < 2 ^ 18)
    (h : f' ≠ f ∨ i' ≠ i) : (s.setEntry (slot f i) e).entry (slot f' i') = s.entry (slot f' i') :=
  Vmm.entry_setEntry_of_apart (slot_apart hf hf' h)

theorem entry_clear (hf : f < 2 ^ 18) :
    (s.setMem (s.mem.memset (pm2va f) 0 pgSize)).entry (slot f i) = Pte.decode 0 := by
  have hpage : pm2va f + pgSize ≤ 2 ^ 32 := by
    rw [pm2va_eq hf, pgSize]
    omega
  have hzero : ∀ x, slot f i ≤ x → x < slot f i + 4 → s.mem.memset (pm2va f) 0 pgSize x = 0 := by
    intro x hx hx'
    rw [slot_eq hf] at hx hx'
    refine ByteMem.memset_of_mem hpage ?_
    rw [pm2va_eq hf, pgSize]
    omega
  have hload : (s.mem.memset (pm2va f) 0 pgSize).load (slot f i) = 0 := by
    have hcongr := load_congr hzero
    rw [hcongr]
    rfl
  rw [Vmm.entry, Vmm.mem, Vmm.setMem, hload]

theorem entry_clear_of_ne (hf : f < 2 ^ 18) (hf' : f' < 2 ^ 18) (h : f' ≠ f) :
    (s.setMem (s.mem.memset (pm2va f) 0 pgSize)).entry (slot f' i') = s.entry (slot f' i') := by
  have hpage : pm2va f + pgSize ≤ 2 ^ 32 := by
    rw [pm2va_eq hf, pgSize]
    omega
  have hload : (s.mem.memset (pm2va f) 0 pgSize).load (slot f' i') = s.mem.load (slot f' i') := by
    refine load_congr fun x hx hx' => ByteMem.memset_of_not_mem hpage ?_
    rw [slot_eq hf'] at hx hx'
    rw [pm2va_eq hf, pgSize]
    omega
  rw [Vmm.entry, Vmm.mem, Vmm.setMem, hload, Vmm.entry]

end

/-! ## What memory represents -/

/-- Directories and tables are pages, and an entry of a directory names the page of a table. -/
abbrev Tables := TwoLevel Nat (Fin 1024) (Fin 1024) Nat Pte Pte

/-- The page of the table that an entry names. -/
def Pte.frame (p : Pte) : Nat := p.addr.toNat

theorem Pte.frame_set (e : Pte) (write user : Bool) (pno : Nat) :
    (e.set write user pno).frame = pno % 2 ^ 20 := by
  rw [Pte.frame, Pte.set, BitVec.toNat_ofNat]

/-- Memory represents the directories in `dirs`, which share tables at the indices in `shared` only.
-/
structure PageTables (dirs : Nat → Prop) (shared : Fin 1024 → Prop) (s : Vmm) (t : Tables) :
    Prop where
  wf : s.physmap.Wf
  bits_le : s.physmap.bits ≤ 2 ^ 18
  dir_used : ∀ d, dirs d → d < s.physmap.bits ∧ s.physmap.has d = true
  tab_used : ∀ d i p, t.dir d i = some p →
    p.frame < s.physmap.bits ∧ s.physmap.has p.frame = true ∧ ¬ dirs p.frame
  dir_none : ∀ d, ¬ dirs d → ∀ i, t.dir d i = none
  dir_eq : ∀ d, dirs d → ∀ i, (s.entry (slot d i)).here = t.dir d i
  tab_eq : ∀ d i p, t.dir d i = some p → ∀ j, (s.entry (slot p.frame j)).here = t.tab p.frame j
  separate : t.Separate Pte.frame shared

/-- The empty store. -/
def emptyTables : Tables := ⟨fun _ _ => none, fun _ _ => none⟩

theorem PageTables.empty {dirs : Nat → Prop} {shared : Fin 1024 → Prop} (hwf : s.physmap.Wf)
    (hbits : s.physmap.bits ≤ 2 ^ 18)
    (hused : ∀ d, dirs d → d < s.physmap.bits ∧ s.physmap.has d = true)
    (hzero : ∀ d, dirs d → ∀ i, s.mem.load (slot d i) = 0) :
    PageTables dirs shared s emptyTables where
  wf := hwf
  bits_le := hbits
  dir_used := hused
  tab_used _ _ _ hp := nomatch hp
  dir_none _ _ _ := rfl
  dir_eq d hd i := by
    rw [Vmm.entry, hzero d hd i]
    rfl
  tab_eq _ _ _ hp := nomatch hp
  separate _ _ _ _ _ _ hp := nomatch hp

/-- What page tables do not depend on stays the same. -/
structure SameVmm (s s' : Vmm) : Prop where
  kpd : s'.kpd = s.kpd
  base : s'.base = s.base
  npages : s'.npages = s.npages
  bits : s'.physmap.bits = s.physmap.bits

theorem SameVmm.rfl : SameVmm s s := ⟨Eq.refl _, Eq.refl _, Eq.refl _, Eq.refl _⟩

theorem SameVmm.trans {s'' : Vmm} (h : SameVmm s s') (h' : SameVmm s' s'') : SameVmm s s'' :=
  ⟨h'.kpd.trans h.kpd, h'.base.trans h.base, h'.npages.trans h.npages, h'.bits.trans h.bits⟩

/-- `pp_alloc` finds a page that is not in use and clears it, or there is none. -/
theorem ppAlloc_cases (hwf : s.physmap.Wf) : (ppAlloc s = .error ppPanic ∧ s.physmap.Full) ∨
    ∃ f, f < s.physmap.bits ∧ s.physmap.has f = false ∧ ppAlloc s =
      .ok (f, { s with physmap := s.physmap.mark f }.setMem (s.mem.memset (pm2va f) 0 pgSize)) := by
  rcases bitmapAlloc_cases hwf with ⟨hrun, hfull⟩ | ⟨f, hrun, hf, hclear, -⟩
  · exact .inl ⟨by rw [ppAlloc, hrun, ok_bind], hfull⟩
  · exact .inr ⟨f, hf, hclear, by rw [ppAlloc, hrun, ok_bind]⟩

/-- The state in which `pgdir_walk` has made a table in the page `f`. -/
def Vmm.withTable (s : Vmm) (a f : Nat) (p : Pte) : Vmm :=
  ({ s with physmap := s.physmap.mark f }.setMem (s.mem.memset (pm2va f) 0 pgSize)).setEntry a p

theorem SameVmm.setMem (m : ByteMem) : SameVmm s (s.setMem m) :=
  ⟨Eq.refl _, Eq.refl _, Eq.refl _, Eq.refl _⟩

theorem SameVmm.withTable (a f : Nat) (p : Pte) : SameVmm s (s.withTable a f p) := by
  have hmark : SameVmm s { s with physmap := s.physmap.mark f } :=
    ⟨Eq.refl _, Eq.refl _, Eq.refl _, Eq.refl _⟩
  exact (hmark.trans (.setMem _)).trans (.setMem _)

theorem pgdirAlloc_cases (hwf : s.physmap.Wf) (a : Nat) (write user : Bool) :
    (pgdirAlloc s a write user = .error ppPanic ∧ s.physmap.Full) ∨
    ∃ (f : Nat) (e : Pte), f < s.physmap.bits ∧ s.physmap.has f = false ∧
      pgdirAlloc s a write user = .ok (s.withTable a f (e.set write user f)) := by
  rcases ppAlloc_cases hwf with ⟨hpanic, hfull⟩ | ⟨f, hf, hfree, hrun⟩
  · exact .inl ⟨by rw [pgdirAlloc, hpanic, error_bind], hfull⟩
  · exact .inr ⟨f, _, hf, hfree, by rw [pgdirAlloc, hrun, ok_bind]; rfl⟩

variable {dirs : Nat → Prop} {shared : Fin 1024 → Prop} {d : Nat} {write user : Bool}
  {cover cover' : Nat → Prop} {val : Nat → Nat} {s s' s'' : Vmm} {t t' t'' : Tables} {p : Pte}

namespace PageTables

variable {i j : Fin 1024}

section
variable (h : PageTables dirs shared s t)
include h

theorem dir_lt (hd : dirs d) : d < 2 ^ 18 :=
  lt_of_lt_of_le (h.dir_used d hd).1 h.bits_le

theorem tab_lt (hp : t.dir d i = some p) : p.frame < 2 ^ 18 :=
  lt_of_lt_of_le (h.tab_used d i p hp).1 h.bits_le

theorem is_dir (hp : t.dir d i = some p) : dirs d := by
  by_contra hd
  rw [h.dir_none d hd i] at hp
  exact nomatch hp

theorem entry_eq (hp : t.dir d i = some p) : s.entry (slot d i) = p ∧ p.present = true :=
  Pte.here_eq_some ((h.dir_eq d (h.is_dir hp) i).trans hp)

/-- **What the hardware looks up.** -/
theorem translate_eq (hd : dirs d) (va : Nat) : s.translate (pm2va d) va =
      (t.lookup Pte.frame d (pdx va) (ptx va)).map fun q => Translation.of q.1 q.2 := by
  have hdir := h.dir_eq d hd (pdx va)
  rw [Vmm.translate]
  cases hp : t.dir d (pdx va) with
  | none =>
    rw [hp, Pte.here_eq_none, slot] at hdir
    simp [hdir, TwoLevel.lookup_none hp]
  | some p =>
    obtain ⟨he, hpresent⟩ := h.entry_eq hp
    have htab := h.tab_eq d _ p hp (ptx va)
    rw [slot] at he
    rw [TwoLevel.lookup_some hp, ← htab]
    simp only [he, hpresent, Bool.true_and]
    rw [Pte.here, slot, Pte.frame]
    split <;> rfl

theorem setEntry (hp : t.dir d i = some p) {e : Pte} (he : e.present = true) :
    PageTables dirs shared (s.setEntry (slot p.frame j) e) (t.write p.frame j e) where
  wf := h.wf
  bits_le := h.bits_le
  dir_used := h.dir_used
  tab_used := h.tab_used
  dir_none := h.dir_none
  dir_eq d' hd' i' := by
    have hne : d' ≠ p.frame := fun heq => (h.tab_used d i p hp).2.2 (heq ▸ hd')
    rw [entry_setEntry_slot (h.tab_lt hp) (h.dir_lt hd') (.inl hne)]
    exact h.dir_eq d' hd' i'
  tab_eq d' i' q hq j' := by
    by_cases hsame : q.frame = p.frame ∧ j' = j
    · obtain ⟨hf, rfl⟩ := hsame
      rw [hf, Vmm.entry_setEntry_same, TwoLevel.tab_write_self, Pte.here_some he]
    · have hne : q.frame ≠ p.frame ∨ j' ≠ j := by tauto
      rw [entry_setEntry_slot (h.tab_lt hp) (h.tab_lt hq) hne, TwoLevel.tab_write_of_ne hne]
      exact h.tab_eq d' i' q hq j'
  separate := h.separate

theorem unused (hf : s.physmap.has f = false) : t.Unused Pte.frame f := by
  rintro d i p hp rfl
  rw [(h.tab_used d i p hp).2.1] at hf
  exact nomatch hf

theorem not_dir (hf : s.physmap.has f = false) : ¬ dirs f := by
  intro hd
  rw [(h.dir_used f hd).2] at hf
  exact nomatch hf

theorem install (hd : dirs d) (hf : f < s.physmap.bits)
    (hfree : s.physmap.has f = false) (hframe : p.frame = f) (hp : p.present = true) :
    PageTables dirs shared (s.withTable (slot d i) f p) (t.install Pte.frame d i p) := by
  have hlt : f < 2 ^ 18 := lt_of_lt_of_le hf h.bits_le
  have hdf : ∀ d', dirs d' → d' ≠ f := fun d' hd' he => h.not_dir hfree (he ▸ hd')
  have hmark : ∀ k, s.physmap.has k = true → (s.physmap.mark f).has k = true := by
    intro k hk
    rw [Bitmap.has_mark (h.wf.lt hf), hk, Bool.true_or]
  -- entries of pages other than the new one
  have hkeep : ∀ {f' : Nat} {i' : Fin 1024}, f' < 2 ^ 18 → f' ≠ f → f' ≠ d ∨ i' ≠ i →
      (s.withTable (slot d i) f p).entry (slot f' i') = s.entry (slot f' i') := by
    intro f' i' hf' hne hne'
    rw [Vmm.withTable, entry_setEntry_slot (h.dir_lt hd) hf' hne']
    exact entry_clear_of_ne hlt hf' hne
  refine ⟨h.wf.mark hf, h.bits_le,
    fun d' hd' => ⟨(h.dir_used d' hd').1, hmark _ (h.dir_used d' hd').2⟩,
    fun d' i' q hq => ?_, fun d' hd' i' => ?_, fun d' hd' i' => ?_, fun d' i' q hq j' => ?_, ?_⟩
  · rcases TwoLevel.dir_install_cases hq with ⟨rfl, rfl, rfl⟩ | hq
    · rw [hframe]
      refine ⟨hf, ?_, h.not_dir hfree⟩
      exact (Bitmap.has_mark (h.wf.lt hf)).trans (by simp)
    · obtain ⟨hlt', hused, hnot⟩ := h.tab_used d' i' q hq
      exact ⟨hlt', hmark _ hused, hnot⟩
  · have hne : d' ≠ d := by
      rintro rfl
      exact hd' hd
    rw [TwoLevel.dir_install_of_ne (.inl hne)]
    exact h.dir_none d' hd' i'
  · by_cases hsame : d' = d ∧ i' = i
    · obtain ⟨rfl, rfl⟩ := hsame
      rw [Vmm.withTable, Vmm.entry_setEntry_same, TwoLevel.dir_install_self, Pte.here_some hp]
    · have hne : d' ≠ d ∨ i' ≠ i := by tauto
      rw [hkeep (h.dir_lt hd') (hdf d' hd') hne, TwoLevel.dir_install_of_ne hne]
      exact h.dir_eq d' hd' i'
  · rcases TwoLevel.dir_install_cases hq with ⟨rfl, rfl, rfl⟩ | hq
    · rw [TwoLevel.tab_install_self, hframe, Vmm.withTable,
        entry_setEntry_slot (h.dir_lt hd) hlt (.inl (hdf _ hd).symm)]
      exact congrArg Pte.here (entry_clear hlt)
    · have hne : q.frame ≠ f := h.unused hfree d' i' q hq
      have hned : q.frame ≠ d := fun he => (h.tab_used d' i' q hq).2.2 (he ▸ hd)
      rw [hkeep (h.tab_lt hq) hne (.inl hned), TwoLevel.tab_install_of_ne (by rwa [hframe])]
      exact h.tab_eq d' i' q hq j'
  · refine h.separate.install ?_
    rw [hframe]
    exact h.unused hfree

end

/-- What `pgdir_walk` has done when it returns. -/
structure Walked (dirs : Nat → Prop) (shared : Fin 1024 → Prop) (write user : Bool) (s : Vmm)
    (t : Tables) (d : Nat) (i : Fin 1024) (s' : Vmm) (t' : Tables) (p : Pte) : Prop where
  tables : PageTables dirs shared s' t'
  entry : t'.dir d i = some p
  other : ∀ d' i', d' ≠ d ∨ i' ≠ i → t'.dir d' i' = t.dir d' i'
  old : t.dir d i ≠ none → t' = t
  lookup : ∀ d' i' j', t'.lookup Pte.frame d' i' j' = t.lookup Pte.frame d' i' j'
  same : SameVmm s s'
  marks : ∀ k, s.physmap.has k = true → s'.physmap.has k = true
  fresh : t.dir d i = none → s.physmap.has p.frame = false
  rights : t.dir d i = none → p.write = write ∧ p.user = user
  marked : ∀ k, s'.physmap.has k = true → s.physmap.has k = true ∨ t.dir d i = none ∧ k = p.frame

/-- **`pgdir_walk`** finds the table of a page or makes one. -/
theorem walk (h : PageTables dirs shared s t) (hd : dirs d) (va : Nat) (write user : Bool) :
    (pgdirWalk s (pm2va d) va write user true = .error ppPanic ∧ s.physmap.Full ∧
      t.dir d (pdx va) = none) ∨
    ∃ s' t' p, pgdirWalk s (pm2va d) va write user true = .ok (slot p.frame (ptx va), s') ∧
      Walked dirs shared write user s t d (pdx va) s' t' p := by
  have hdir := h.dir_eq d hd (pdx va)
  rw [pgdirWalk]
  cases hp : t.dir d (pdx va) with
  | some p =>
    obtain ⟨he, hpresent⟩ := h.entry_eq hp
    rw [slot] at he
    refine .inr ⟨s, t, p, ?_, h, hp, fun _ _ _ => rfl, fun _ => rfl, fun _ _ _ => rfl, .rfl,
      fun _ hk => hk, fun hnone => (nomatch hp.symm.trans hnone),
      fun hnone => (nomatch hp.symm.trans hnone), fun _ hk => .inl hk⟩
    simp only [he, hpresent, Bool.not_true, Bool.false_and, Bool.false_eq_true, if_false,
      ok_bind]
    rfl
  | none =>
    rw [hp, Pte.here_eq_none, slot] at hdir
    simp only [hdir, Bool.not_false, Bool.true_and, if_true]
    rcases pgdirAlloc_cases h.wf (entryAddr (pm2va d) (pdx va)) write user with
      ⟨hpanic, hfull⟩ | ⟨f, e, hf, hfree, hrun⟩
    · exact .inl ⟨by rw [hpanic, error_bind], hfull, trivial⟩
    · have hlt : f < 2 ^ 20 :=
        lt_trans (lt_of_lt_of_le hf h.bits_le) (by decide : 2 ^ 18 < 2 ^ 20)
      have hframe : (e.set write user f).frame = f := by
        rw [Pte.frame_set, Nat.mod_eq_of_lt hlt]
      have hentry : (s.withTable (slot d (pdx va)) f (e.set write user f)).entry (slot d (pdx va)) =
        e.set write user f := Vmm.entry_setEntry_same
      have hhas : ∀ k, (s.withTable (slot d (pdx va)) f (e.set write user f)).physmap.has k =
        (s.physmap.has k || decide (f = k)) := fun k => Bitmap.has_mark (h.wf.lt hf)
      refine .inr ⟨_, _, _, ?_, h.install hd hf hfree hframe rfl, TwoLevel.dir_install_self,
        fun _ _ hne => TwoLevel.dir_install_of_ne hne, fun hne => absurd hp hne,
        fun _ _ _ => TwoLevel.lookup_install hp (hframe.symm ▸ h.unused hfree), .withTable ..,
        fun k hk => ?_, fun _ => hframe.symm ▸ hfree, fun _ => ⟨rfl, rfl⟩, fun k hk => ?_⟩
      · rw [slot] at hentry ⊢
        rw [hrun, ok_bind, hentry]
        rfl
      · rw [hhas, hk, Bool.true_or]
      · rw [hhas, Bool.or_eq_true, decide_eq_true_eq] at hk
        rw [hframe]
        exact hk.imp_right fun he => ⟨hp, he.symm⟩

end PageTables

/-! ## Mappings -/

/-- What is found for an address. -/
def TablesAt (t : Tables) (d x : Nat) : Option (Pte × Pte) := t.lookup Pte.frame d (pdx x) (ptx x)

theorem pdx_val (hx : x < 2 ^ 32) : (pdx x).val = x / 2 ^ 22 := by
  rw [pdx, Fin.val_ofNat, Nat.shiftRight_eq_div_pow]
  omega

theorem ptx_val (x : Nat) : (ptx x).val = x / 2 ^ 12 % 1024 := by
  rw [ptx, Fin.val_ofNat, Nat.shiftRight_eq_div_pow]

theorem page_eq_iff {y : Nat} (hx : x < 2 ^ 32) (hy : y < 2 ^ 32) :
    (pdx x = pdx y ∧ ptx x = ptx y) ↔ x / 4096 = y / 4096 := by
  rw [Fin.ext_iff, Fin.ext_iff, pdx_val hx, pdx_val hy, ptx_val, ptx_val]
  omega

/-- A directory gets entries for the addresses in `cover`, and tables where they are needed. -/
structure Grows (dirs : Nat → Prop) (shared : Fin 1024 → Prop) (d : Nat) (write user : Bool)
    (cover : Nat → Prop) (s : Vmm) (t : Tables) (s' : Vmm) (t' : Tables) : Prop where
  tables : PageTables dirs shared s' t'
  same : SameVmm s s'
  /-- The other addresses are not affected, nor are other directories that do not share the table.
  -/
  rest : ∀ d' x, x < 2 ^ 32 → (¬ cover x ∨ d' ≠ d ∧ ¬ shared (pdx x)) →
    TablesAt t' d' x = TablesAt t d' x
  dir_other : ∀ d' i, d' ≠ d → t'.dir d' i = t.dir d' i
  dir_old : ∀ i, t.dir d i ≠ none → t'.dir d i = t.dir d i
  marks : ∀ k, s.physmap.has k = true → s'.physmap.has k = true
  fresh : ∀ i p, t.dir d i = none → t'.dir d i = some p → s.physmap.has p.frame = false
  rights : ∀ i p, t.dir d i = none → t'.dir d i = some p → p.write = write ∧ p.user = user

namespace Grows

theorem refl (h : PageTables dirs shared s t) : Grows dirs shared d write user cover s t s t where
  tables := h
  same := .rfl
  rest _ _ _ _ := rfl
  dir_other _ _ _ := rfl
  dir_old _ _ := rfl
  marks _ hk := hk
  fresh _ _ hnone hsome := nomatch hnone.symm.trans hsome
  rights _ _ hnone hsome := nomatch hnone.symm.trans hsome

theorem trans (h : Grows dirs shared d write user cover s t s' t')
    (h' : Grows dirs shared d write user cover' s' t' s'' t'') :
    Grows dirs shared d write user (fun x => cover x ∨ cover' x) s t s'' t'' where
  tables := h'.tables
  same := h.same.trans h'.same
  rest d' x hx hc := by
    have hfirst := h.rest d' x hx (hc.imp_left fun hno hcov => hno (.inl hcov))
    exact (h'.rest d' x hx (hc.imp_left fun hno hcov => hno (.inr hcov))).trans hfirst
  dir_other d' i hd := (h'.dir_other d' i hd).trans (h.dir_other d' i hd)
  dir_old i hi := by
    have hfirst := h.dir_old i hi
    exact (h'.dir_old i (hfirst.symm ▸ hi)).trans hfirst
  marks k hk := h'.marks k (h.marks k hk)
  fresh i p hnone hsome := by
    cases hp : t'.dir d i with
    | some q =>
      have hq : t''.dir d i = t'.dir d i := h'.dir_old i (hp ▸ Option.some_ne_none q)
      exact h.fresh i p hnone (hq.symm.trans hsome)
    | none =>
      by_contra hused
      have hfree := h'.fresh i p hp hsome
      rw [h.marks _ (by simpa using hused)] at hfree
      exact nomatch hfree
  rights i p hnone hsome := by
    cases hp : t'.dir d i with
    | some q =>
      have hq : t''.dir d i = t'.dir d i := h'.dir_old i (hp ▸ Option.some_ne_none q)
      exact h.rights i p hnone (hq.symm.trans hsome)
    | none => exact h'.rights i p hp hsome

theorem congr (h : Grows dirs shared d write user cover s t s' t')
    (hc : ∀ x, x < 2 ^ 32 → cover x → cover' x) :
    Grows dirs shared d write user cover' s t s' t' where
  tables := h.tables
  same := h.same
  rest d' x hx hno := h.rest d' x hx (hno.imp_left fun hno hcov => hno (hc x hx hcov))
  dir_other := h.dir_other
  dir_old := h.dir_old
  marks := h.marks
  fresh := h.fresh
  rights := h.rights

end Grows

/-- All directories let their tables decide who may write. -/
def Writable (t : Tables) : Prop := ∀ d i p, t.dir d i = some p → p.write = true

theorem Grows.writable {dirs : Nat → Prop} {shared : Fin 1024 → Prop} {d : Nat} {user : Bool}
    {cover : Nat → Prop} {t t' : Tables} (h : Grows dirs shared d true user cover s t s' t')
    (hw : Writable t) : Writable t' := by
  intro d' i p hp
  by_cases hd : d' = d
  · subst hd
    cases hold : t.dir d' i with
    | none => exact (h.rights i p hold hp).1
    | some q => exact hw d' i p ((h.dir_old i (hold ▸ Option.some_ne_none q)).symm.trans hp)
  · exact hw d' i p ((h.dir_other d' i hd).symm.trans hp)

/-- The effect of mapping addresses in a directory: `cover` says which, and `val` says which
physical pages they are mapped to. -/
structure Maps (dirs : Nat → Prop) (shared : Fin 1024 → Prop) (d : Nat) (write user : Bool)
    (cover : Nat → Prop) (val : Nat → Nat) (s : Vmm) (t : Tables) (s' : Vmm) (t' : Tables) : Prop
    extends Grows dirs shared d write user cover s t s' t' where
  /-- The addresses are mapped. -/
  covered : ∀ x, x < 2 ^ 32 → cover x → ∃ q, TablesAt t' d x = some q ∧ q.2.frame = val x ∧
    q.2.write = write ∧ q.2.user = user
  /-- Tables are made where they are needed. -/
  dir_away : ∀ i, (∀ x, x < 2 ^ 32 → cover x → pdx x ≠ i) → t'.dir d i = t.dir d i
  /-- No page is marked but for them. -/
  marked : ∀ k, s'.physmap.has k = true → s.physmap.has k = true ∨
    ∃ i p, t.dir d i = none ∧ t'.dir d i = some p ∧ p.frame = k

namespace Maps

theorem refl (h : PageTables dirs shared s t) (hnone : ∀ x, ¬ cover x) :
    Maps dirs shared d write user cover val s t s t where
  toGrows := .refl h
  covered x _ hx := absurd hx (hnone x)
  dir_away _ _ := rfl
  marked _ hk := .inl hk

theorem trans (h : Maps dirs shared d write user cover val s t s' t')
    (h' : Maps dirs shared d write user cover' val s' t' s'' t'') :
    Maps dirs shared d write user (fun x => cover x ∨ cover' x) val s t s'' t'' where
  toGrows := h.toGrows.trans h'.toGrows
  covered x hx hc := by
    by_cases hc' : cover' x
    · exact h'.covered x hx hc'
    · obtain ⟨q, hq, hval⟩ := h.covered x hx (hc.resolve_right hc')
      exact ⟨q, (h'.rest d x hx (.inl hc')).trans hq, hval⟩
  dir_away i hi := (h'.dir_away i fun x hx hc => hi x hx (.inr hc)).trans
    (h.dir_away i fun x hx hc => hi x hx (.inl hc))
  marked k hk := by
    rcases h'.marked k hk with hk | ⟨i, p, hnone, hsome, hframe⟩
    · rcases h.marked k hk with hk | ⟨i, p, hnone, hsome, hframe⟩
      · exact .inl hk
      · have hp : t''.dir d i = t'.dir d i := h'.dir_old i (hsome ▸ Option.some_ne_none p)
        exact .inr ⟨i, p, hnone, hp.trans hsome, hframe⟩
    · refine .inr ⟨i, p, ?_, hsome, hframe⟩
      by_contra hsome'
      exact hsome' ((h.dir_old i hsome').symm.trans hnone)

theorem congr (h : Maps dirs shared d write user cover val s t s' t')
    (hc : ∀ x, x < 2 ^ 32 → (cover' x ↔ cover x)) :
    Maps dirs shared d write user cover' val s t s' t' where
  toGrows := h.toGrows.congr fun x hx => (hc x hx).2
  covered x hx hcov := h.covered x hx ((hc x hx).1 hcov)
  dir_away i hi := h.dir_away i fun x hx hcov => hi x hx ((hc x hx).2 hcov)
  marked := h.marked

end Maps

namespace PageTables

/-- **An assignment to the entry of a page**, after `pgdir_walk`. -/
theorem map {write user : Bool} (hva : va < 2 ^ 32)
    (h : Walked dirs shared write user s t d (pdx va) s' t' p) (pno : Nat) (e : Pte)
    {val : Nat → Nat} (hval : ∀ x, x / 4096 = va / 4096 → val x = pno % 2 ^ 20) :
    Maps dirs shared d write user (fun x => x / 4096 = va / 4096) val s t
      (s'.setEntry (slot p.frame (ptx va)) (e.set write user pno))
      (t'.write p.frame (ptx va) (e.set write user pno)) where
  tables := h.tables.setEntry h.entry rfl
  same := h.same.trans (.setMem _)
  covered x hx hc := by
    obtain ⟨hi, hj⟩ := (page_eq_iff hx hva).2 hc
    refine ⟨(p, e.set write user pno), ?_, ?_, rfl, rfl⟩
    · rw [TablesAt, hi, hj]
      exact TwoLevel.lookup_write_self h.entry rfl
    · rw [hval x hc]
      exact Pte.frame_set e write user pno
  rest d' x hx hc := by
    rw [TablesAt, TablesAt, ← h.lookup]
    refine TwoLevel.lookup_write_of_ne h.tables.separate h.entry ?_
    rcases hc with hc | ⟨hd, hs⟩
    · rw [← page_eq_iff hx hva] at hc
      tauto
    · by_cases hi : pdx x = pdx va
      · exact .inr (.inr ⟨hd, hi ▸ hs⟩)
      · exact .inl hi
  dir_other d' i hd := h.other d' i (.inl hd)
  dir_away i hi := h.other d i (.inr fun he => hi va hva rfl he.symm)
  dir_old i hi := by
    by_cases he : i = pdx va
    · subst he
      rw [← h.old hi]
      rfl
    · exact h.other d i (.inr he)
  marks := h.marks
  fresh i q hnone hsome := by
    by_cases he : i = pdx va
    · subst he
      obtain rfl : p = q := Option.some.inj (h.entry.symm.trans hsome)
      exact h.fresh hnone
    · exact nomatch hnone.symm.trans ((h.other d i (.inr he)).symm.trans hsome)
  rights i q hnone hsome := by
    by_cases he : i = pdx va
    · subst he
      obtain rfl : p = q := Option.some.inj (h.entry.symm.trans hsome)
      exact h.rights hnone
    · exact nomatch hnone.symm.trans ((h.other d i (.inr he)).symm.trans hsome)
  marked k hk := (h.marked k hk).imp_right fun hnew => ⟨pdx va, p, hnew.1, h.entry, hnew.2.symm⟩

theorem Walked.here {write user : Bool} (h : Walked dirs shared write user s t d (pdx va) s' t' p) :
    (s'.entry (slot p.frame (ptx va))).here = (TablesAt t d va).map Prod.snd := by
  rw [h.tables.tab_eq d _ p h.entry, TablesAt, ← h.lookup, TwoLevel.lookup_some h.entry]
  cases t'.tab p.frame (ptx va) <;> rfl

/-- **`page_insert`** maps a page that is not mapped. -/
theorem pageInsert_cases (h : PageTables dirs shared s t) (hd : dirs d) (pno : Nat)
    (hva : va < 2 ^ 32) (write user : Bool) :
    (pageInsert s (pm2va d) pno va write user = .error ppPanic ∧ s.physmap.Full) ∨
    (TablesAt t d va ≠ none ∧
      pageInsert s (pm2va d) pno va write user = .error (.assertFailed "!pg->present")) ∨
    (TablesAt t d va = none ∧ ∃ s' t', pageInsert s (pm2va d) pno va write user = .ok (0, s') ∧
      Maps dirs shared d write user (fun x => x / 4096 = va / 4096)
        (fun _ => pno % 2 ^ 20) s t s' t') := by
  have hpd : (pm2va d != 0) = true := by
    have := pm2va_eq (h.dir_lt hd)
    rw [bne_iff_ne]
    omega
  rw [pageInsert, hpd, assert_true, ok_bind]
  rcases h.walk hd va write user with ⟨hpanic, hfull, -⟩ | ⟨s', t', p, hrun, hwalk⟩
  · exact .inl ⟨by rw [hpanic, error_bind], hfull⟩
  · have hpg : slot p.frame (ptx va) ≠ 0 := by
      have := slot_eq (hwalk.tables.tab_lt hwalk.entry) (ptx va)
      omega
    have hhere := hwalk.here
    rw [hrun, ok_bind]
    dsimp only
    rw [if_neg hpg]
    cases hat : TablesAt t d va with
    | none =>
      rw [hat, Option.map_none, Pte.here_eq_none] at hhere
      refine .inr (.inr ⟨rfl, _, _, ?_, map hva hwalk pno
        (s'.entry (slot p.frame (ptx va))) fun _ _ => rfl⟩)
      rw [hhere, Bool.not_false, assert_true, ok_bind]
    | some q =>
      rw [hat, Option.map_some] at hhere
      obtain ⟨he, hpresent⟩ := Pte.here_eq_some hhere
      refine .inr (.inl ⟨Option.some_ne_none q, ?_⟩)
      rw [he, hpresent, Bool.not_true, assert_false, error_bind]

/-- The addresses that `boot_map` covers from the offset `i` on. -/
def BootCover (va bytes i x : Nat) : Prop := va + i ≤ x ∧ (x - va) / 4096 * 4096 < bytes

/-- The page that `boot_map` maps an address to. -/
def bootFrame (va pa x : Nat) : Nat := Word.add pa ((x - va) / 4096 * 4096) / 4096

/-- In the middle of a mapping, physical memory was exhausted when a table was needed. -/
def Exhausted (dirs : Nat → Prop) (shared : Fin 1024 → Prop) (d : Nat) (write user : Bool)
    (cover : Nat → Prop) (val : Nat → Nat) (s : Vmm) (t : Tables) : Prop :=
  ∃ cover' s' t' x, (∀ y, cover' y → cover y) ∧
    Maps dirs shared d write user cover' val s t s' t' ∧ s'.physmap.Full ∧ x < 2 ^ 32 ∧ cover x ∧
    t'.dir d (pdx x) = none

theorem bootMapLoop_cases {pa : Nat} (hva : va % 4096 = 0) (hbytes : bytes + 4096 ≤ 2 ^ 32)
    (hend : va + bytes ≤ 2 ^ 32) (write user : Bool) (hd : dirs d) :
    ∀ {fuel i : Nat} {s : Vmm} {t : Tables}, PageTables dirs shared s t → i % 4096 = 0 →
      bytes + 4096 ≤ 4096 * fuel + i → i < bytes + 4096 →
      (bootMapLoop (pm2va d) va pa bytes write user fuel i s = .error ppPanic ∧
        Exhausted dirs shared d write user (BootCover va bytes i) (bootFrame va pa) s t) ∨
      ∃ s' t', bootMapLoop (pm2va d) va pa bytes write user fuel i s = .ok s' ∧
        Maps dirs shared d write user (BootCover va bytes i) (bootFrame va pa) s t s' t' := by
  intro fuel
  induction fuel with
  | zero => intro i s t _ hi hfuel hlt; omega
  | succ fuel ih =>
    intro i s t h hi hfuel hlt
    rw [bootMapLoop]
    by_cases hmore : i < bytes
    · have hmod : (i + 4096) % 4096 = 0 := by omega
      have hfuel' : bytes + 4096 ≤ 4096 * fuel + (i + 4096) := by
        clear * - hfuel
        omega
      have hlt' : i + 4096 < bytes + 4096 := by omega
      rw [if_pos hmore]
      have haddr : Word.add va i = va + i := Word.add_eq
      have hnext : Word.add i pgSize = i + 4096 := Word.add_eq (by rw [pgSize]; omega)
      rcases h.walk hd (Word.add va i) write user with
        ⟨hpanic, hfull, hnone⟩ | ⟨s1, t1, p, hrun, hwalk⟩
      · refine .inl ⟨by rw [hpanic, error_bind], fun _ => False, s, t, Word.add va i,
          fun _ hy => hy.elim, Maps.refl h fun _ hx => hx, hfull, Word.add_lt va i, ?_, hnone⟩
        rw [haddr, BootCover]
        omega
      · have hpno : pa2pm (Word.add pa i) < 2 ^ 20 := by
          have := Word.add_lt pa i
          rw [pa2pm, Nat.shiftRight_eq_div_pow]
          omega
        have hval : ∀ x, x / 4096 = Word.add va i / 4096 →
            bootFrame va pa x = pa2pm (Word.add pa i) % 2 ^ 20 := by
          intro x hx
          rw [Nat.mod_eq_of_lt hpno, bootFrame, pa2pm, Nat.shiftRight_eq_div_pow,
            show (x - va) / 4096 * 4096 = i by omega]
        have hmap := map (Word.add_lt va i) hwalk (pa2pm (Word.add pa i))
          (s1.entry (slot p.frame (ptx (Word.add va i)))) hval
        rw [hrun, ok_bind]
        rw [hnext]
        rcases ih hmap.tables hmod hfuel' hlt' with
          ⟨hpanic, c1, s2, t2, x, hsub, hmaps, hfull, hx, hcov, hnone⟩ | ⟨s', t', hrun', hmaps⟩
        · refine .inl ⟨hpanic, _, s2, t2, x, fun y hy => ?_, hmap.trans hmaps, hfull, hx, ?_, hnone⟩
          · rcases hy with hy | hy
            · rw [haddr] at hy
              rw [BootCover]
              omega
            · have hcov' := hsub y hy
              rw [BootCover] at hcov' ⊢
              omega
          · rw [BootCover] at hcov ⊢
            omega
        · refine .inr ⟨s', t', hrun', (hmap.trans hmaps).congr fun x hx => ?_⟩
          simp only [haddr, BootCover]
          omega
    · rw [if_neg hmore]
      refine .inr ⟨s, t, rfl, Maps.refl h fun x hx => ?_⟩
      rw [BootCover] at hx
      omega

/-- The loop of `boot_map` for any arguments, with addresses that may wrap around: the tables stay
well formed. -/
theorem bootMapLoop_keeps (hd : dirs d) (va pa bytes : Nat) (write user : Bool) (fuel : Nat)
    (h : PageTables dirs shared s t)
    (hrun : bootMapLoop (pm2va d) va pa bytes write user fuel i s = .ok s') :
    SameVmm s s' ∧ ∃ t', PageTables dirs shared s' t' := by
  induction fuel generalizing i s t with
  | zero => exact nomatch hrun
  | succ fuel ih =>
    rw [bootMapLoop] at hrun
    split at hrun
    · rcases h.walk hd (Word.add va i) write user with ⟨hpanic, -⟩ | ⟨s1, t1, p, hwalk, hw⟩
      · rw [hpanic] at hrun
        exact nomatch hrun
      · rw [hwalk, ok_bind] at hrun
        obtain ⟨hsame, hkeeps⟩ := ih (hw.tables.setEntry hw.entry rfl) hrun
        exact ⟨(hw.same.trans (.setMem _)).trans hsame, hkeeps⟩
    · cases hrun
      exact ⟨.rfl, t, h⟩

/-- **`boot_map`** maps a range of pages. -/
theorem bootMap_cases (h : PageTables dirs shared s t) (hd : dirs d) (pa : Nat)
    (hva : va % 4096 = 0) (hbytes : bytes + 4096 ≤ 2 ^ 32) (hend : va + bytes ≤ 2 ^ 32)
    (write user : Bool) : (bootMap s (pm2va d) va pa bytes write user = .error ppPanic ∧
      Exhausted dirs shared d write user (BootCover va bytes 0) (bootFrame va pa) s t) ∨
    ∃ s' t', bootMap s (pm2va d) va pa bytes write user = .ok s' ∧
      Maps dirs shared d write user (BootCover va bytes 0) (bootFrame va pa) s t s' t' :=
  bootMapLoop_cases hva hbytes hend write user hd h rfl (by rw [loopFuel]; omega) (by omega)

end PageTables

/-! ## A mapping within one table -/

section
variable {i : Fin 1024}

section
variable (h : Maps dirs shared d write user cover val s t s' t')
    (hone : ∀ x, x < 2 ^ 32 → cover x → pdx x = i)
include h hone

theorem Maps.marked_one {k : Nat} (hk : s'.physmap.has k = true) :
    s.physmap.has k = true ∨ ∃ p, t'.dir d i = some p ∧ p.frame = k := by
  rcases h.marked k hk with hk | ⟨i', p, hnone, hsome, hframe⟩
  · exact .inl hk
  · by_cases hi : i' = i
    · exact .inr ⟨p, hi ▸ hsome, hframe⟩
    · have hsame := h.dir_away i' fun x hx hc he => hi (he.symm.trans (hone x hx hc))
      exact nomatch hnone.symm.trans (hsame.symm.trans hsome)

theorem Maps.free_one {n : Nat} (hfree : s.physmap.Free (n + 1)) : s'.physmap.Free n := by
  refine hfree.of_marked (m := ((t'.dir d i).map Pte.frame).getD 0) h.same.bits fun k hk => ?_
  refine (h.marked_one hone hk).imp_right fun ⟨p, hp, hframe⟩ => ?_
  rw [hp, ← hframe]
  rfl

end

theorem PageTables.Exhausted.full (h : Exhausted dirs shared d write user cover val s t)
    (hone : ∀ x, x < 2 ^ 32 → cover x → pdx x = i) : s.physmap.Full := by
  obtain ⟨c, s1, t1, x, hsub, hmaps, hfull, hx, hcov, hnone⟩ := h
  intro k hk
  have hk' : s1.physmap.has k = true := hfull k (hmaps.same.bits.symm ▸ hk)
  rcases hmaps.marked_one (fun y hy hc => hone y hy (hsub y hc)) hk' with hset | ⟨p, hp, -⟩
  · exact hset
  · rw [hone x hx hcov] at hnone
    exact nomatch hnone.symm.trans hp

end

end JinxOS
