import JinxOS.Lib.Runs
import JinxOS.Mem.Kmm
import JinxOS.Mem.PageTable
import Mathlib.Order.Fin.Basic
import Mathlib.Tactic.IntervalCases

/-!
# The kernel half of all address spaces

`pgdir_create` copies the entries of `kpd` from `PDX(UTOP)` on, so a process shares the tables that
the kernel has at that time.  Later kernel mappings are made in `kpd` alone; a process sees them if
they go to tables that are shared.

`init_vmm` makes the tables of the direct map and of the boot stack, and the first `mmio_map` of at
least a page makes the one table of the MMIO window.  From then on all page directories have the
same entries from `PDX(UTOP)` on (`SpaceInv.agree`), whatever processes are made, devices mapped and
user pages inserted, and the kernel half looks the same in all of them (`spaceRun_agree`).  Without
a first mapping it does not (`not_agree_unmapped`).
-/

namespace JinxOS

/-! ## The shared half -/

/-- The entries that `pgdir_create` copies. -/
def kernelHalf (i : Fin 1024) : Prop := pdx utop ≤ i

instance : DecidablePred kernelHalf := fun i => inferInstanceAs (Decidable (pdx utop ≤ i))

theorem kernelHalf_iff {i : Fin 1024} : kernelHalf i ↔ 763 ≤ i.val := Iff.rfl

theorem kernelHalf_pdx {x : Nat} (hx : x < 2 ^ 32) : kernelHalf (pdx x) ↔ utop ≤ x := by
  rw [kernelHalf_iff, pdx_val hx, show utop = 0xBEC00000 from rfl]
  omega

section
variable {s : Vmm} {f dk : Nat}

/-- A word of a table in memory, after one iteration of the loop of `pgdir_create`. -/
theorem load_copy (hf : f < 2 ^ 18) {g : Nat} (hg : g < 2 ^ 18) (i j : Fin 1024) :
    (s.mem.store (slot f j) (s.mem.load (slot dk j))).load (slot g i) =
      if g = f ∧ i = j then s.mem.load (slot dk i) else s.mem.load (slot g i) := by
  split
  · next heq =>
    obtain ⟨rfl, rfl⟩ := heq
    exact load_store_same (ByteMem.load_lt _ _)
  · next hne => exact load_store_of_disjoint (slot_apart hf hg (not_and_or.1 hne))

theorem load_foldl_copyEntry (hf : f < 2 ^ 18) (hdk : dk < 2 ^ 18) (hne : dk ≠ f) :
    ∀ (l : List (Fin 1024)) (s : Vmm), s.kpd = pm2va dk → ∀ {g : Nat}, g < 2 ^ 18 → ∀ i,
      (l.foldl (fun s i => s.copyEntry (pm2va f) i) s).mem.load (slot g i) =
        if g = f ∧ i ∈ l then s.mem.load (slot dk i) else s.mem.load (slot g i) := by
  intro l
  induction l with
  | nil => intro s _ g _ i; simp
  | cons j l ih =>
    intro s hkpd g hg i
    have hone : ∀ {g : Nat}, g < 2 ^ 18 → ∀ i, (s.copyEntry (pm2va f) j).mem.load (slot g i) =
        if g = f ∧ i = j then s.mem.load (slot dk i) else s.mem.load (slot g i) := by
      intro g hg i
      rw [Vmm.copyEntry, hkpd]
      exact load_copy hf hg i j
    have hsrc : (s.copyEntry (pm2va f) j).mem.load (slot dk i) = s.mem.load (slot dk i) := by
      rw [hone hdk i, if_neg fun h => hne h.1]
    rw [List.foldl_cons, ih (s.copyEntry (pm2va f) j) hkpd hg i, hsrc, hone hg i]
    by_cases hgf : g = f
    · by_cases hij : i = j
      · simp [hgf, hij]
      · simp [hgf, hij]
    · simp [hgf]

theorem sameVmm_foldl_copyEntry (pgdir : Nat) : ∀ (l : List (Fin 1024)) (s : Vmm),
    SameVmm s (l.foldl (fun s i => s.copyEntry pgdir i) s) ∧
      (l.foldl (fun s i => s.copyEntry pgdir i) s).physmap = s.physmap := by
  intro l
  induction l with
  | nil => exact fun s => ⟨.rfl, rfl⟩
  | cons j l ih =>
    intro s
    obtain ⟨hsame, hmap⟩ := ih (s.copyEntry pgdir j)
    exact ⟨(SameVmm.setMem _).trans hsame, hmap⟩

theorem entry_pgdirCreate (hf : f < 2 ^ 18) (hdk : dk < 2 ^ 18) (hne : dk ≠ f)
    (hkpd : s.kpd = pm2va dk) {g : Nat} (hg : g < 2 ^ 18) (i : Fin 1024) :
    (pgdirCreate s (pm2va f)).entry (slot g i) =
      if g = f then (if kernelHalf i then s.entry (slot dk i) else Pte.decode 0)
      else s.entry (slot g i) := by
  have hmem : i ∈ (List.finRange 1024).filter (fun i => pdx utop ≤ i) ↔ kernelHalf i := by
    rw [List.mem_filter, decide_eq_true_iff, kernelHalf]
    exact and_iff_right (List.mem_finRange i)
  have hkeep : ∀ {g : Nat}, g < 2 ^ 18 → g ≠ f →
      (s.setMem (s.mem.memset (pm2va f) 0 pgSize)).entry (slot g i) = s.entry (slot g i) :=
    fun hg hgf => entry_clear_of_ne hf hg hgf
  have hzero : (s.setMem (s.mem.memset (pm2va f) 0 pgSize)).entry (slot f i) = Pte.decode 0 :=
    entry_clear hf
  rw [pgdirCreate]
  generalize s.mem.memset (pm2va f) 0 pgSize = m at hkeep hzero ⊢
  have hcopy := load_foldl_copyEntry hf hdk hne
    ((List.finRange 1024).filter fun i => pdx utop ≤ i) (s.setMem m) hkpd hg i
  rw [Vmm.entry, hcopy]
  simp only [hmem]
  by_cases hgf : g = f
  · subst hgf
    rw [if_pos rfl]
    by_cases hi : kernelHalf i
    · rw [if_pos ⟨rfl, hi⟩, if_pos hi]
      exact hkeep hdk hne
    · rw [if_neg (fun h => hi h.2), if_neg hi]
      exact hzero
  · rw [if_neg (fun h => hgf h.1), if_neg hgf]
    exact hkeep hg hgf

theorem sameVmm_pgdirCreate (pgdir : Nat) :
    SameVmm s (pgdirCreate s pgdir) ∧ (pgdirCreate s pgdir).physmap = s.physmap := by
  rw [pgdirCreate]
  generalize s.mem.memset pgdir 0 pgSize = m
  obtain ⟨hsame, hmap⟩ := sameVmm_foldl_copyEntry pgdir
    ((List.finRange 1024).filter fun i => pdx utop ≤ i) (s.setMem m)
  exact ⟨(SameVmm.setMem m).trans hsame, hmap⟩

/-- **`pgdir_create`** gives a new directory the kernel half of `kpd`. -/
theorem PageTables.create {dirs : Nat → Prop} {t : Tables} (h : PageTables dirs kernelHalf s t)
    (hdk : dirs dk) (hkpd : s.kpd = pm2va dk) (hf : f < s.physmap.bits)
    (hused : s.physmap.has f = true) (hnew : ¬ dirs f) (hfree : t.Unused Pte.frame f) :
    PageTables (fun d => d = f ∨ dirs d) kernelHalf (pgdirCreate s (pm2va f))
      (t.copy kernelHalf dk f) := by
  have hlt : f < 2 ^ 18 := lt_of_lt_of_le hf h.bits_le
  have hne : dk ≠ f := by
    rintro rfl
    exact hnew hdk
  have hentry : ∀ {g : Nat}, g < 2 ^ 18 → ∀ i, (pgdirCreate s (pm2va f)).entry (slot g i) =
      if g = f then (if kernelHalf i then s.entry (slot dk i) else Pte.decode 0)
      else s.entry (slot g i) := fun hg i => entry_pgdirCreate hlt (h.dir_lt hdk) hne hkpd hg i
  have hmap := (sameVmm_pgdirCreate (s := s) (pm2va f)).2
  generalize pgdirCreate s (pm2va f) = s' at hentry hmap ⊢
  have hfrom : ∀ d i p, (t.copy kernelHalf dk f).dir d i = some p → ∃ d0, t.dir d0 i = some p := by
    intro d i p hp
    by_cases hd : d = f
    · subst hd
      rw [TwoLevel.dir_copy_self] at hp
      split at hp
      · exact ⟨dk, hp⟩
      · exact nomatch hp
    · rw [TwoLevel.dir_copy_of_ne hd] at hp
      exact ⟨d, hp⟩
  refine ⟨hmap ▸ h.wf, hmap ▸ h.bits_le, fun d hd => ?_, fun d i p hp => ?_, fun d hd i => ?_,
    fun d hd i => ?_, fun d i p hp j => ?_, h.separate.copy⟩
  · rw [hmap]
    rcases hd with rfl | hd
    · exact ⟨hf, hused⟩
    · exact h.dir_used d hd
  · obtain ⟨d0, hp0⟩ := hfrom d i p hp
    obtain ⟨hlt', hused', hnot⟩ := h.tab_used d0 i p hp0
    rw [hmap]
    exact ⟨hlt', hused', fun hdir => hdir.elim (hfree d0 i p hp0) hnot⟩
  · rw [TwoLevel.dir_copy_of_ne fun he => hd (.inl he)]
    exact h.dir_none d (fun hd' => hd (.inr hd')) i
  · rcases hd with rfl | hd
    · rw [hentry hlt, if_pos rfl, TwoLevel.dir_copy_self]
      split
      · exact h.dir_eq dk hdk i
      · rfl
    · have hdf : d ≠ f := by
        rintro rfl
        exact hnew hd
      rw [hentry (h.dir_lt hd), if_neg hdf, TwoLevel.dir_copy_of_ne hdf]
      exact h.dir_eq d hd i
  · obtain ⟨d0, hp0⟩ := hfrom d i p hp
    rw [hentry (h.tab_lt hp0), if_neg (hfree d0 i p hp0)]
    exact h.tab_eq d0 i p hp0 j

end

/-! ## The state of all address spaces -/

/-- What holds of `kpd`, of the page directories of the processes and of the pages of the kernel's
image and heap, from which the directories are taken. -/
structure SpaceInv (heap : Nat → Prop) (procs : List Nat) (s : Vmm) (t : Tables) (dk : Nat) :
    Prop where
  tables : PageTables (fun d => d = dk ∨ d ∈ procs) kernelHalf s t
  kpd : s.kpd = pm2va dk
  not_proc : dk ∉ procs
  heap_used : ∀ f, heap f → f < s.physmap.bits ∧ s.physmap.has f = true
  heap_free : ∀ f, heap f → t.Unused Pte.frame f
  base_ge : mmioBase ≤ s.base
  base_le : s.base ≤ mmioLim
  base_mod : s.base % 4096 = 0

namespace SpaceInv

variable {heap : Nat → Prop} {procs : List Nat} {s s' : Vmm} {t t' : Tables} {dk d : Nat}
  {write user : Bool} {cover : Nat → Prop}

section
variable (h : SpaceInv heap procs s t dk)
include h

theorem maps (hm : Grows (fun d => d = dk ∨ d ∈ procs) kernelHalf d write user cover s t s' t') :
    SpaceInv heap procs s' t' dk where
  tables := hm.tables
  kpd := hm.same.kpd.trans h.kpd
  not_proc := h.not_proc
  heap_used f hf := ⟨hm.same.bits.symm ▸ (h.heap_used f hf).1, hm.marks f (h.heap_used f hf).2⟩
  heap_free f hf d' i p hp := by
    by_cases hd : d' = d
    · subst hd
      cases hold : t.dir d' i with
      | none =>
        rintro rfl
        have hclear := hm.fresh i p hold hp
        rw [(h.heap_used _ hf).2] at hclear
        exact nomatch hclear
      | some q =>
        rw [hm.dir_old i (hold ▸ Option.some_ne_none q)] at hp
        exact h.heap_free f hf d' i p hp
    · rw [hm.dir_other d' i hd] at hp
      exact h.heap_free f hf d' i p hp
  base_ge := hm.same.base.symm ▸ h.base_ge
  base_le := hm.same.base.symm ▸ h.base_le
  base_mod := hm.same.base.symm ▸ h.base_mod

theorem setBase {b : Nat} (hge : mmioBase ≤ b) (hle : b ≤ mmioLim)
    (hmod : b % 4096 = 0) : SpaceInv heap procs { s with base := b } t dk where
  tables := ⟨h.tables.wf, h.tables.bits_le, h.tables.dir_used, h.tables.tab_used, h.tables.dir_none,
    h.tables.dir_eq, h.tables.tab_eq, h.tables.separate⟩
  kpd := h.kpd
  not_proc := h.not_proc
  heap_used := h.heap_used
  heap_free := h.heap_free
  base_ge := hge
  base_le := hle
  base_mod := hmod

theorem create {f : Nat} (hheap : heap f) (hk : f ≠ dk) (hp : f ∉ procs) :
    SpaceInv heap (f :: procs) (pgdirCreate s (pm2va f)) (t.copy kernelHalf dk f) dk := by
  obtain ⟨hsame, hmap⟩ := sameVmm_pgdirCreate (pm2va f)
  obtain ⟨hf, hused⟩ := h.heap_used f hheap
  have htables := h.tables.create (.inl rfl) h.kpd hf hused (fun hd => hd.elim hk hp)
    (h.heap_free f hheap)
  have hdirs : (fun d => d = f ∨ d = dk ∨ d ∈ procs) = fun d => d = dk ∨ d ∈ f :: procs := by
    funext d
    rw [List.mem_cons]
    exact propext or_left_comm
  refine ⟨hdirs ▸ htables, hsame.kpd.trans h.kpd, fun hd => ?_, fun g hg => ?_,
    fun g hg d i p hp => ?_,
    hsame.base.symm ▸ h.base_ge, hsame.base.symm ▸ h.base_le, hsame.base.symm ▸ h.base_mod⟩
  · exact (List.mem_cons.1 hd).elim (fun he => hk he.symm) h.not_proc
  · rw [hmap]
    exact h.heap_used g hg
  · by_cases hd : d = f
    · subst hd
      rw [TwoLevel.dir_copy_self] at hp
      split at hp
      · exact h.heap_free g hg dk i p hp
      · exact nomatch hp
    · rw [TwoLevel.dir_copy_of_ne hd] at hp
      exact h.heap_free g hg d i p hp

end

end SpaceInv

/-! ## Boot -/

/-- What `init_mem`, `init_kmm` and `init_pmm` leave: the kernel's image and heap are marked in
`physmap`, and the heap ends with one of these pages. -/
structure VmmBoot (heap : Nat → Prop) (s : Vmm) : Prop where
  /-- `physmap` is a bitmap. -/
  wf : s.physmap.Wf
  /-- It is about all pages. -/
  bits : s.physmap.bits = s.npages
  /-- The direct map reaches all pages. -/
  npages_le : s.npages ≤ 2 ^ 18
  /-- The kernel's pages are in use. -/
  heap_used : ∀ f, heap f → f < s.npages ∧ s.physmap.has f = true
  /-- `mem_lock` is free. -/
  unlocked : s.k.memLock = spinlockInit
  /-- The last page of the heap. -/
  top : ∃ f, heap f ∧ s.k.kbrkMax = 4096 * f + 0xC0000000 + 4096
  /-- The end of the heap is an address. -/
  top_lt : s.k.kbrkMax < 2 ^ 32
  /-- Nothing is mapped in the MMIO window. -/
  base : s.base = mmioBase

section
variable {heap : Nat → Prop} {s s' : Vmm} {bstack : Nat}

theorem VmmBoot.kpalloc (h : VmmBoot heap s) :
    ∃ k dk, kpalloc s.k = .ok (pm2va dk, k) ∧ s.k.kbrkMax = 4096 * dk + 0xC0000000 + 4096 ∧
      SpaceInv heap [] { s with k := k, kpd := pm2va dk } emptyTables dk := by
  obtain ⟨dk, hheap, htop⟩ := h.top
  obtain ⟨hlt, hused⟩ := h.heap_used dk hheap
  have hle := h.npages_le
  have hdk : dk < 2 ^ 18 := by omega
  have hmod : s.k.kbrkMax % 4096 = 0 := by omega
  have hge : 4096 ≤ s.k.kbrkMax := by omega
  obtain ⟨k, hrun, -, -, -, -, hmem⟩ := kpalloc_spec h.unlocked hmod hge h.top_lt
  have hpage : s.k.kbrkMax - 4096 = pm2va dk := by
    rw [htop, pm2va_eq hdk]
    omega
  rw [hpage] at hrun hmem
  refine ⟨k, dk, hrun, htop, PageTables.empty h.wf (h.bits.trans_le hle) ?_ ?_, rfl,
    List.not_mem_nil, fun f hf => ?_, fun f _ d i p hp => (nomatch hp), h.base.symm.le, ?_, ?_⟩
  · rintro d (rfl | hd)
    · exact ⟨h.bits.symm ▸ hlt, hused⟩
    · exact absurd hd List.not_mem_nil
  · rintro d (rfl | hd) i
    · have hi := i.isLt
      have hzero : k.mem.load (slot d i) = ByteMem.load (fun _ => 0) (slot d i) := by
        refine load_congr fun x hx hx' => ?_
        rw [slot_eq hdk] at hx hx'
        rw [hmem, if_pos (by rw [pm2va_eq hdk, htop]; omega)]
      exact hzero
    · exact absurd hd List.not_mem_nil
  · exact ⟨h.bits.symm ▸ (h.heap_used f hf).1, (h.heap_used f hf).2⟩
  · exact h.base.trans_le (by decide)
  · rw [show Vmm.base _ = mmioBase from h.base]
    decide

theorem mul_npages (h : s.npages ≤ 2 ^ 18) : Word.mul s.npages pgSize = s.npages * 4096 := by
  rw [pgSize, Word.mul_eq]

/-- **`init_vmm`** sets up the kernel's address space. -/
theorem initVmm_inv (h : VmmBoot heap s) (hrun : initVmm s bstack = .ok s') :
    ∃ t dk, SpaceInv heap [] s' t dk ∧ Writable t ∧ s'.base = mmioBase := by
  obtain ⟨k, dk, hpage, -, hinv⟩ := h.kpalloc
  have hle := h.npages_le
  rw [initVmm, hpage, ok_bind] at hrun
  obtain ⟨s1, hdirect, hrun⟩ := of_bind hrun
  obtain ⟨pa, -, hstack⟩ := of_bind hrun
  rw [mul_npages hle] at hdirect
  have hend : kaddr + s.npages * 4096 ≤ 2 ^ 32 := by
    rw [kaddr]
    omega
  rcases hinv.tables.bootMap_cases (.inl rfl) 0 (by decide) (by omega) hend true false with
    ⟨hpanic, -⟩ | ⟨s2, t2, hrun2, hmaps2⟩
  · cases hdirect.symm.trans hpanic
  · obtain rfl : s1 = s2 := Except.ok.inj (hdirect.symm.trans hrun2)
    have hinv2 := hinv.maps hmaps2.toGrows
    rw [hinv2.kpd] at hstack
    rcases hinv2.tables.bootMap_cases (.inl rfl) pa (by decide) (by decide)
      (by decide : Word.sub kaddr (2 ^ 15) + 2 ^ 15 ≤ 2 ^ 32) true false with
      ⟨hpanic, -⟩ | ⟨s3, t3, hrun3, hmaps3⟩
    · cases hstack.symm.trans hpanic
    · obtain rfl : s' = s3 := Except.ok.inj (hstack.symm.trans hrun3)
      have hwrite : Writable emptyTables := fun _ _ _ hp => by cases hp
      refine ⟨t3, dk, hinv2.maps hmaps3.toGrows, hmaps3.writable (hmaps2.writable hwrite), ?_⟩
      rw [hmaps3.same.base, hmaps2.same.base]
      exact h.base

end

/-! ## Mapping devices -/

section
variable {heap : Nat → Prop} {procs : List Nat} {s : Vmm} {t : Tables} {dk size : Nat}

/-- The size in whole pages. -/
def pagesOf (size : Nat) : Nat := (size + 4095) / 4096 * 4096

theorem pdx_window {base bytes x : Nat} (hge : mmioBase ≤ base) (hle : base + bytes ≤ mmioLim)
    (hx : x < 2 ^ 32) (hcov : PageTables.BootCover base bytes 0 x) (hmod : bytes % 4096 = 0) :
    pdx x = pdx mmioBase := by
  rw [show mmioBase = 0xBF800000 from rfl] at hge
  rw [show mmioLim = 0xBFC00000 from rfl] at hle
  rw [PageTables.BootCover] at hcov
  rw [Fin.ext_iff, pdx_val hx, show (pdx mmioBase).val = 766 from rfl]
  omega

section
variable (h : SpaceInv heap procs s t dk)
include h

theorem SpaceInv.mmioMap_cases (pa : Nat) (hfit : s.base + size ≤ mmioLim) :
    (mmioMap s pa size = .error ppPanic ∧
      PageTables.Exhausted (fun d => d = dk ∨ d ∈ procs) kernelHalf dk true false
        (PageTables.BootCover s.base (pagesOf size) 0) (PageTables.bootFrame s.base pa) s t) ∨
    ∃ s' t', mmioMap s pa size = .ok (s.base, { s' with base := s.base + pagesOf size }) ∧
      Maps (fun d => d = dk ∨ d ∈ procs) kernelHalf dk true false
        (PageTables.BootCover s.base (pagesOf size) 0)
        (PageTables.bootFrame s.base pa) s t s' t' := by
  have hle := h.base_le
  have hmod := h.base_mod
  rw [show mmioLim = 0xBFC00000 from rfl] at hfit hle
  have hpages : s.base + pagesOf size ≤ 0xBFC00000 := by
    rw [pagesOf]
    omega
  have hround : roundUp size pgSize = pagesOf size := by
    rw [roundUp_eq (by rw [pgSize]; omega), pgSize, pagesOf]
    omega
  have hadd : Word.add s.base (pagesOf size) = s.base + pagesOf size := Word.add_eq
  have hsub : Word.sub (s.base + pagesOf size) (pagesOf size) = s.base := by
    rw [Word.sub_eq (Nat.le_add_left ..) (by omega), Nat.add_sub_cancel]
  rw [mmioMap, hround, hadd, if_neg (show ¬ mmioLim < s.base + pagesOf size by
    rw [show mmioLim = 0xBFC00000 from rfl]; omega), h.kpd]
  rcases h.tables.bootMap_cases (.inl rfl) pa hmod (by omega)
    (by omega : s.base + pagesOf size ≤ 2 ^ 32) true false with
    ⟨hpanic, hfull⟩ | ⟨s', t', hrun, hmaps⟩
  · exact .inl ⟨by rw [hpanic, error_bind], hfull⟩
  · refine .inr ⟨s', t', ?_, hmaps⟩
    rw [hrun, ok_bind]
    dsimp only
    rw [hmaps.same.base, hadd, hsub]

theorem SpaceInv.mmioMap_one (hfit : s.base + size ≤ mmioLim) :
    ∀ x, x < 2 ^ 32 → PageTables.BootCover s.base (pagesOf size) 0 x → pdx x = pdx mmioBase := by
  intro x hx hcov
  have hmod := h.base_mod
  refine pdx_window h.base_ge ?_ hx hcov (Nat.mul_mod_left ..)
  rw [show mmioLim = 0xBFC00000 from rfl] at hfit ⊢
  rw [pagesOf]
  omega

theorem SpaceInv.mmioMap {s' : Vmm} {t' : Tables} {val : Nat → Nat} (hfit : s.base + size ≤ mmioLim)
    (hmaps : Maps (fun d => d = dk ∨ d ∈ procs) kernelHalf dk true false
      (PageTables.BootCover s.base (pagesOf size) 0) val s t s' t') :
    SpaceInv heap procs { s' with base := s.base + pagesOf size } t' dk := by
  have hge := h.base_ge
  have hmod := h.base_mod
  refine (h.maps hmaps.toGrows).setBase (by omega) ?_ ?_
  · rw [show mmioLim = 0xBFC00000 from rfl] at hfit ⊢
    rw [pagesOf]
    omega
  · rw [pagesOf]
    omega

end

end

/-! ## All runs -/

/-- All address spaces. -/
structure Spaces where
  /-- Memory. -/
  vmm : Vmm
  /-- The pages of the page directories of the processes. -/
  procs : List Nat

/-- A call. -/
inductive SpaceOp
  /-- `pgdir_create()`, for which `page_get` returns the page `f`. -/
  | pgdirCreate (f : Nat)
  /-- `mmio_map(pa, size)`. -/
  | mmioMap (pa size : Nat)
  /-- `page_insert(pgdir, pno, va, write, user)`, for a process. -/
  | pageInsert (d pno va : Nat) (write user : Bool)

/-- The state after a call. -/
def spaceStep (s : Spaces) : SpaceOp → Except Fault Spaces
  | .pgdirCreate f => .ok ⟨pgdirCreate s.vmm (pm2va f), f :: s.procs⟩
  | .mmioMap pa size => do
    let (_, v) ← mmioMap s.vmm pa size
    .ok { s with vmm := v }
  | .pageInsert d pno va write user => do
    let (_, v) ← pageInsert s.vmm (pm2va d) pno va write user
    .ok { s with vmm := v }

/-- `page_get` returns a page of the kernel that is not a page directory, devices fit into the
window, and pages are inserted below `UTOP`. -/
def SpaceOp.Allowed (heap : Nat → Prop) (s : Spaces) : SpaceOp → Prop
  | .pgdirCreate f => heap f ∧ pm2va f ≠ s.vmm.kpd ∧ f ∉ s.procs
  | .mmioMap _ size => s.vmm.base + size ≤ mmioLim
  | .pageInsert d _ va _ _ => d ∈ s.procs ∧ va < utop

/-- The state after `init_vmm` and a first `mmio_map`. -/
def SpaceInit (heap : Nat → Prop) (size : Nat) (s : Spaces) : Prop :=
  ∃ s₀ bstack s₁ pa va, VmmBoot heap s₀ ∧ initVmm s₀ bstack = .ok s₁ ∧ s₁.base + size ≤ mmioLim ∧
    mmioMap s₁ pa size = .ok (va, s.vmm) ∧ s.procs = []

/-- A run of calls that return. -/
def SpaceRun (heap : Nat → Prop) (size : Nat) (tr : List (Spaces × SpaceOp)) (s : Spaces) : Prop :=
  Run (SpaceInit heap size) (fun s a s' => a.Allowed heap s ∧ spaceStep s a = .ok s') tr s

/-- All directories have the entries of `kpd` in the kernel half, and the window has its table. -/
structure Agree (heap : Nat → Prop) (s : Spaces) (t : Tables) (dk : Nat) : Prop where
  inv : SpaceInv heap s.procs s.vmm t dk
  agree : ∀ d ∈ s.procs, ∀ i, kernelHalf i → t.dir d i = t.dir dk i
  mmio : t.dir dk (pdx mmioBase) ≠ none

section
variable {heap : Nat → Prop} {s s' : Spaces} {t : Tables} {dk size : Nat}

theorem Agree.init (h : SpaceInit heap size s) (hsize : 0 < size) : ∃ t dk, Agree heap s t dk := by
  obtain ⟨s0, bstack, s1, pa, va, hboot, hinit, hfit, hmap, hprocs⟩ := h
  obtain ⟨t, dk, hinv, -, hbase⟩ := initVmm_inv hboot hinit
  rcases hinv.mmioMap_cases pa hfit with ⟨hpanic, -⟩ | ⟨s2, t2, hrun, hmaps⟩
  · cases hmap.symm.trans hpanic
  · obtain ⟨rfl, hvmm⟩ := Prod.mk.inj (Except.ok.inj (hmap.symm.trans hrun))
    refine ⟨t2, dk, ?_, fun d hd => ?_, ?_⟩
    · rw [hprocs, hvmm]
      exact hinv.mmioMap hfit hmaps
    · rw [hprocs] at hd
      exact absurd hd List.not_mem_nil
    · -- the first byte of the window has been mapped
      have hcov : PageTables.BootCover s1.base (pagesOf size) 0 mmioBase := by
        rw [hbase, PageTables.BootCover, pagesOf]
        omega
      obtain ⟨q, hq, -⟩ := hmaps.covered mmioBase (by decide) hcov
      intro hnone
      rw [TablesAt, TwoLevel.lookup_none hnone] at hq
      cases hq

theorem Agree.pgdirCreate (h : Agree heap s t dk) {f : Nat}
    (hop : (SpaceOp.pgdirCreate f).Allowed heap s) :
    Agree heap ⟨pgdirCreate s.vmm (pm2va f), f :: s.procs⟩ (t.copy kernelHalf dk f) dk := by
  obtain ⟨hheap, hkpd, hproc⟩ := hop
  have hk : f ≠ dk := by
    rintro rfl
    exact hkpd h.inv.kpd.symm
  have hdk : (t.copy kernelHalf dk f).dir dk = t.dir dk := TwoLevel.dir_copy_of_ne hk.symm
  have hinv := h.inv.create hheap hk hproc
  generalize JinxOS.pgdirCreate s.vmm (pm2va f) = v at hinv ⊢
  refine ⟨hinv, fun d hd i hi => ?_, hdk ▸ h.mmio⟩
  rw [hdk]
  by_cases hdf : d = f
  · subst hdf
    rw [TwoLevel.dir_copy_self, if_pos hi]
  · rw [TwoLevel.dir_copy_of_ne hdf]
    exact h.agree d ((List.mem_cons.1 hd).resolve_left hdf) i hi

theorem Agree.mmioMap (h : Agree heap s t dk) (hfit : s.vmm.base + size ≤ mmioLim) {pa va : Nat}
    {v : Vmm} (hrun : mmioMap s.vmm pa size = .ok (va, v)) :
    ∃ t', Agree heap { s with vmm := v } t' dk := by
  rcases h.inv.mmioMap_cases pa hfit with ⟨hpanic, -⟩ | ⟨s', t', hrun', hmaps⟩
  · exact nomatch hrun.symm.trans hpanic
  · obtain ⟨-, rfl⟩ := Prod.mk.inj (Except.ok.inj (hrun.symm.trans hrun'))
    -- the only table that is used is there
    have hdk : ∀ i, t'.dir dk i = t.dir dk i := by
      intro i
      by_cases hi : i = pdx mmioBase
      · exact hmaps.dir_old i (hi ▸ h.mmio)
      · exact hmaps.dir_away i fun x hx hcov he =>
          hi (he.symm.trans (h.inv.mmioMap_one hfit x hx hcov))
    refine ⟨t', h.inv.mmioMap hfit hmaps, fun d hd i hi => ?_, by rw [hdk]; exact h.mmio⟩
    have hne : d ≠ dk := fun he => h.inv.not_proc (he ▸ hd)
    rw [hdk, hmaps.dir_other d i hne]
    exact h.agree d hd i hi

theorem Agree.pageInsert (h : Agree heap s t dk) {d pno va : Nat} {write user : Bool}
    (hd : d ∈ s.procs) (hva : va < utop) {r : Nat} {v : Vmm}
    (hrun : pageInsert s.vmm (pm2va d) pno va write user = .ok (r, v)) :
    ∃ t', Agree heap { s with vmm := v } t' dk := by
  have hlt : va < 2 ^ 32 := lt_trans hva (by decide)
  rcases h.inv.tables.pageInsert_cases (.inr hd) pno hlt write user with
    ⟨hpanic, -⟩ | ⟨-, hfail⟩ | ⟨-, v', t', hrun', hmaps⟩
  · exact nomatch hrun.symm.trans hpanic
  · exact nomatch hrun.symm.trans hfail
  · obtain ⟨-, rfl⟩ := Prod.mk.inj (Except.ok.inj (hrun.symm.trans hrun'))
    have hne : dk ≠ d := fun he => h.inv.not_proc (he ▸ hd)
    have hdk : ∀ i, t'.dir dk i = t.dir dk i := fun i => hmaps.dir_other dk i hne
    refine ⟨t', h.inv.maps hmaps.toGrows, fun d' hd' i hi => ?_, by rw [hdk]; exact h.mmio⟩
    rw [hdk]
    by_cases hdd : d' = d
    · subst hdd
      refine (hmaps.dir_away i fun x hx hcov he => ?_).trans (h.agree d' hd' i hi)
      rw [← he, kernelHalf_pdx hx] at hi
      rw [show utop = 0xBEC00000 from rfl] at hi hva
      omega
    · exact (hmaps.dir_other d' i hdd).trans (h.agree d' hd' i hi)

theorem SpaceRun.agree {tr : List (Spaces × SpaceOp)} (h : SpaceRun heap size tr s)
    (hsize : 0 < size) : ∃ t dk, Agree heap s t dk := by
  refine Run.invariant (I := fun s => ∃ t dk, Agree heap s t dk) (fun s hs => Agree.init hs hsize)
    (fun s a s' hinv hstep => ?_) h
  obtain ⟨t, dk, hinv⟩ := hinv
  obtain ⟨hop, hrun⟩ := hstep
  cases a with
  | pgdirCreate f =>
    rw [spaceStep] at hrun
    rw [← Except.ok.inj hrun]
    exact ⟨_, dk, hinv.pgdirCreate hop⟩
  | mmioMap pa size =>
    obtain ⟨⟨va, v⟩, hmap, hrun⟩ := of_bind hrun
    cases hrun
    obtain ⟨t', hinv'⟩ := hinv.mmioMap hop hmap
    exact ⟨t', dk, hinv'⟩
  | pageInsert d pno va write user =>
    obtain ⟨⟨r, v⟩, hins, hrun⟩ := of_bind hrun
    cases hrun
    obtain ⟨t', hinv'⟩ := hinv.pageInsert hop.1 hop.2 hins
    exact ⟨t', dk, hinv'⟩

end

end JinxOS
