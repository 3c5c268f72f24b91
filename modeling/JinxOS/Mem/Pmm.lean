import JinxOS.Mem.Kmm
import JinxOS.Mem.Vmm

/-!
# The map of physical pages

`init_pmm` of `mem/pmm.c`, over the `e820` map of `hw/e820.h`.  All pages up to the end of memory
are marked, and then those that an available region reaches are unmarked, except the pages below the
kernel's break.

The two ends of a region are rounded down, and the page of the end is unmarked too: a region reaches
the page after its last one, and a page of which it has only a part (`E820E.Reaches`).  A region
whose end is 4 GiB reaches no page, since the end is 0 as a `size_t`.  `initPmm_cases` is what
`init_pmm` does on any map; `pmmCond_iff_ordinary` says what is left of the condition for the maps
that a machine has.
-/

namespace JinxOS

/-! ## The code -/

/-- `struct e820_e`. -/
structure E820E where
  /-- `addr`, of 64 bits. -/
  addr : Nat
  /-- `len`, of 64 bits. -/
  len : Nat
  type : Nat
  deriving DecidableEq, Repr

/-- `E820_AVAILABLE`. -/
def e820Available : Nat := 1

/-- `E820_RESERVED`. -/
def e820Reserved : Nat := 2

/-- `E820_MAX_SIZE`. -/
def e820MaxSize : Nat := 64

/-- `e->addr + e->len`. -/
def E820E.stop (e : E820E) : Nat := (e.addr + e.len) % 2 ^ 64

/-- `(size_t) x`. -/
def sizeT (x : Nat) : Nat := x % 2 ^ 32

/-- The first loop of `init_pmm`. -/
def ramSize (entries : List E820E) : Nat :=
  entries.foldl (fun ram e => max ram (sizeT e.stop)) 0

/-- The second loop of `init_pmm`, from page `i` on. -/
def markPages (physmap : Option Bitmap) : Nat → Nat → Except Fault (Option Bitmap)
  | 0, _ => .ok physmap
  | n + 1, i => do
    let b ← deref physmap
    let set ← bitmapIsset b i
    assert "!bitmap_isset(physmap, i)" (!set)
    let b ← bitmapMark b i
    markPages (some b) n (i + 1)

/-- `i >= PA2PM(PADDR(KADDR)) && i < PA2PM(PADDR(_kbrk))`. -/
def kernelPage (kbrk i : Nat) : Except Fault Bool := do
  let lo ← paddr kaddr
  if i < pa2pm lo then .ok false
  else do
    let hi ← paddr kbrk
    .ok (decide (i < pa2pm hi))

/-- The inner loop of `init_pmm`, from page `i` on. -/
def freePages (kbrk : Nat) (physmap : Option Bitmap) : Nat → Nat → Except Fault (Option Bitmap)
  | 0, _ => .ok physmap
  | n + 1, i => do
    let skip ← kernelPage kbrk i
    if skip then freePages kbrk physmap n (i + 1)
    else do
      let b ← deref physmap
      let b ← bitmapUnmark b i
      freePages kbrk (some b) n (i + 1)

/-- The body of the third loop of `init_pmm`. -/
def freeRegion (kbrk npages : Nat) (physmap : Option Bitmap) (e : E820E) :
    Except Fault (Option Bitmap) :=
  if e.type = e820Available then
    let minPage := max (pa2pm (sizeT e.addr)) 1
    if npages ≤ minPage then .ok physmap
    else
      let maxPage := min (pa2pm (sizeT e.stop) + 1) npages
      freePages kbrk physmap (maxPage - minPage) minPage
  else .ok physmap

/-- `init_pmm`: `npages` and `physmap`. -/
def initPmm (kbrk : Nat) (entries : List E820E) : Except Fault (Nat × Option Bitmap) := do
  let npages := pa2pm (ramSize entries)
  let physmap ← bitmapCreate npages
  let physmap ← markPages physmap npages 0
  let physmap ← entries.foldlM (freeRegion kbrk npages) physmap
  .ok (npages, physmap)

/-- The value of `_kbrk`, which is `kbrk_max` in `init_kmm`. -/
def Layout.kbrk (L : Layout) : Nat := Word.add (roundUp L.kheap pgSize) (roundDown maxHeap pgSize)

/-- `PADDR(_kbrk)`. -/
def Layout.kbrkPa (L : Layout) : Nat := Word.sub L.kbrk kaddr

/-! ## Regions and pages -/

namespace E820E

/-- The byte is in the region. -/
def Contains (e : E820E) (x : Nat) : Prop := e.addr ≤ x ∧ x < e.addr + e.len

/-- The loops unmark the page for this region, if they come to it at all. -/
def Reaches (e : E820E) (p : Nat) : Prop :=
  e.type = e820Available ∧ e.addr + e.len ≠ 2 ^ 32 ∧ e.addr / pgSize ≤ p ∧
    p ≤ (e.addr + e.len) / pgSize

end E820E

/-- An `e820` map: at most 64 regions without an overlap, none of which ends above 4 GiB. -/
structure E820Map where
  /-- `entries`, of which there are `size`. -/
  entries : List E820E
  /-- The array has 64 entries. -/
  size_le : entries.length ≤ e820MaxSize
  /-- Two regions have no byte in common. -/
  disjoint : entries.Pairwise fun e e' => ∀ x, e.Contains x → ¬ e'.Contains x
  /-- No region ends above 4 GiB. -/
  stop_le : ∀ e ∈ entries, e.addr + e.len ≤ 2 ^ 32

/-- Each byte of the page is in a region that is available. -/
def PageAvailable (entries : List E820E) (p : Nat) : Prop :=
  ∀ x, p * pgSize ≤ x → x < (p + 1) * pgSize →
    ∃ e ∈ entries, e.type = e820Available ∧ e.Contains x

/-- `init_pmm` completes, and the pages that it leaves clear are usable memory. -/
def PmmSafe (L : Layout) (M : E820Map) : Prop :=
  ∃ npages physmap, initPmm L.kbrk M.entries = .ok (npages, physmap) ∧
    ∀ p b, p < npages → physmap = some b → b.has p = false →
      PageAvailable M.entries p ∧ p ≠ 0 ∧ L.kbrkPa ≤ p * pgSize

/-- The pages that `init_pmm` may unmark. -/
def InReach (L : Layout) (M : E820Map) (p : Nat) : Prop :=
  L.kbrkPa / pgSize ≤ p ∧ p < ramSize M.entries / pgSize

/-- No page is unmarked for both regions. -/
def NoShare (L : Layout) (M : E820Map) (e e' : E820E) : Prop :=
  ∀ p, InReach L M p → e.Reaches p → ¬ e'.Reaches p

/-- No page is reached for two regions, and a page that is reached is inside its region, or else
inside this one and an available region that ends at 4 GiB. -/
structure PmmCond (L : Layout) (M : E820Map) : Prop where
  /-- No page is unmarked twice. -/
  once : M.entries.Pairwise (NoShare L M)
  /-- A page is available if it is unmarked. -/
  available : ∀ e ∈ M.entries, ∀ p, InReach L M p → e.Reaches p →
    ∀ x, p * pgSize ≤ x → x < (p + 1) * pgSize → e.Contains x ∨
      ∃ e' ∈ M.entries, e'.type = e820Available ∧ e'.addr + e'.len = 2 ^ 32 ∧ e'.addr ≤ x

/-! ## The loops -/

section
variable {b : Bitmap} {kbrk : Nat} {L : Layout}

theorem Layout.kbrk_eq (L : Layout) : L.kbrk = L.base + 8388608 := by
  obtain ⟨-, -, hhi⟩ := L.base_bounds
  rw [Layout.kbrk, show roundDown maxHeap pgSize = 8388608 by decide]
  exact Word.add_eq (by rw [Layout.base] at hhi; omega)

theorem Layout.kbrkPa_bounds (L : Layout) :
    kaddr ≤ L.kbrk ∧ L.kbrkPa % pgSize = 0 ∧ pgSize ≤ L.kbrkPa := by
  obtain ⟨hmod, hlo, hhi⟩ := L.base_bounds
  rw [Layout.kbrkPa, L.kbrk_eq, kaddr, pgSize, Word.sub_eq]
  omega

theorem pa2pm_eq (pa : Nat) : pa2pm pa = pa / pgSize := Nat.shiftRight_eq_div_pow ..

theorem kernelPage_eq (L : Layout) (i : Nat) :
    kernelPage L.kbrk i = .ok (decide (i < L.kbrkPa / pgSize)) := by
  have hle := L.kbrkPa_bounds.1
  have hzero : Word.sub kaddr kaddr = 0 := by decide
  rw [kernelPage, paddr, if_neg (Nat.lt_irrefl _), ok_bind, hzero, pa2pm_eq, Nat.zero_div,
    if_neg (Nat.not_lt_zero i), paddr, if_neg (Nat.not_lt.2 hle), ok_bind, pa2pm_eq]
  rfl

theorem markPages_ok : ∀ {n i : Nat} {b : Bitmap}, b.Wf → i + n = b.bits →
    (∀ p, p < b.bits → b.has p = decide (p < i)) →
    ∃ b', markPages (some b) n i = .ok (some b') ∧ b'.Wf ∧ b'.bits = b.bits ∧
      ∀ p, p < b.bits → b'.has p = true := by
  intro n
  induction n with
  | zero =>
    intro i b hwf hbits hhas
    exact ⟨b, rfl, hwf, rfl, fun p hp => (hhas p hp).trans (decide_eq_true (by omega))⟩
  | succ n ih =>
    intro i b hwf hbits hhas
    have hi : i < b.bits := by omega
    have hclear : b.has i = false := (hhas i hi).trans (decide_eq_false (Nat.lt_irrefl i))
    obtain ⟨b', hrun, hwf', hbits', hall⟩ := ih (hwf.mark hi)
      (show i + 1 + n = b.bits by omega) fun p (hp : p < b.bits) => by
        rw [Bitmap.has_mark (hwf.lt hi), hhas p hp, ← Bool.decide_or]
        exact decide_eq_decide.2 (by omega)
    refine ⟨b', ?_, hwf', hbits', hall⟩
    rw [markPages, deref_some, ok_bind, bitmapIsset_ok hi, ok_bind, hclear,
      Bool.not_false, assert_true, ok_bind, bitmapMark_ok hi hclear, ok_bind, hrun]

/-- Pages are unmarked one after the other: all of them must be marked, and different. -/
theorem unmarkPages_cases : ∀ {l : List Nat} {b : Bitmap}, b.Wf → (∀ p ∈ l, p < b.bits) →
    ((l.Nodup ∧ ∀ p ∈ l, b.has p = true) ∧
      ∃ b', l.foldlM bitmapUnmark b = .ok b' ∧ ∀ p, b'.has p = (b.has p && !decide (p ∈ l))) ∨
    (¬ (l.Nodup ∧ ∀ p ∈ l, b.has p = true) ∧ ∃ e, l.foldlM bitmapUnmark b = .error e) := by
  intro l
  induction l with
  | nil => exact fun _ _ => .inl ⟨⟨List.nodup_nil, nofun⟩, _, rfl, by simp⟩
  | cons q l ih =>
    intro b hwf hlt
    have hq : q < b.bits := hlt q List.mem_cons_self
    rw [List.foldlM_cons]
    cases hset : b.has q with
    | false =>
      refine .inr ⟨fun h => ?_, .assertFailed "(b->bytes[i] & msk) != 0", ?_⟩
      · rw [h.2 q List.mem_cons_self] at hset
        exact nomatch hset
      · rw [bitmapUnmark_clear hq hset, error_bind]
    | true =>
      have hhas : ∀ p, (b.unmark q).has p = (b.has p && !decide (q = p)) := fun p =>
        Bitmap.has_unmark (hwf.lt hq)
      rw [bitmapUnmark_ok hq hset, ok_bind]
      rcases ih (hwf.unmark hq) fun p hp => hlt p (List.mem_cons_of_mem _ hp) with
        ⟨⟨hnodup, hall⟩, b', hrun, hb'⟩ | ⟨hnot, herror⟩
      · refine .inl ⟨⟨List.nodup_cons.2 ⟨fun hmem => ?_, hnodup⟩, fun p hp => ?_⟩, b', hrun,
          fun p => ?_⟩
        · simpa [hhas] using hall q hmem
        · rcases List.mem_cons.1 hp with rfl | hp
          · exact hset
          · exact (Bool.and_eq_true_iff.1 ((hhas p).symm.trans (hall p hp))).1
        · rw [hb', hhas, Bool.and_assoc, ← Bool.not_or, ← Bool.decide_or]
          simp only [List.mem_cons, eq_comm]
      · refine .inr ⟨fun h => hnot ⟨(List.nodup_cons.1 h.1).2, fun p hp => ?_⟩, herror⟩
        have hne : q ≠ p := fun heq => (List.nodup_cons.1 h.1).1 (heq ▸ hp)
        rw [hhas, h.2 p (List.mem_cons_of_mem _ hp), decide_eq_false hne]
        rfl

/-- The pages that are unmarked for a region, in the order of the loop. -/
def freedPages (L : Layout) (npages : Nat) (e : E820E) : List Nat :=
  if e.type = e820Available then
    (List.range' (max (sizeT e.addr / pgSize) 1)
      (min (sizeT e.stop / pgSize + 1) npages - max (sizeT e.addr / pgSize) 1)).filter
        fun p => L.kbrkPa / pgSize ≤ p
  else []

theorem freePages_eq (L : Layout) : ∀ (n i : Nat) (b : Bitmap),
    freePages L.kbrk (some b) n i =
      ((List.range' i n).filter fun p => L.kbrkPa / pgSize ≤ p).foldlM bitmapUnmark b >>=
        fun b' => .ok (some b') := by
  intro n
  induction n with
  | zero => exact fun i b => rfl
  | succ n ih =>
    intro i b
    rw [freePages, kernelPage_eq, ok_bind, List.range'_succ]
    by_cases hi : L.kbrkPa / pgSize ≤ i
    · rw [decide_eq_false (by omega), List.filter_cons_of_pos (by simpa using hi), List.foldlM_cons,
        if_neg Bool.false_ne_true, deref_some, ok_bind]
      cases bitmapUnmark b i with
      | error e => rfl
      | ok b' => exact ih (i + 1) b'
    · rw [decide_eq_true (by omega), List.filter_cons_of_neg (by simpa using hi), if_pos rfl, ih]

theorem freeRegion_eq (L : Layout) (npages : Nat) (b : Bitmap) (e : E820E) :
    freeRegion L.kbrk npages (some b) e =
      (freedPages L npages e).foldlM bitmapUnmark b >>= fun b' => .ok (some b') := by
  rw [freeRegion, freedPages]
  by_cases htype : e.type = e820Available
  · rw [if_pos htype, if_pos htype]
    dsimp only
    rw [freePages_eq, pa2pm_eq, pa2pm_eq]
    split
    · next hle =>
      rw [show min (sizeT e.stop / pgSize + 1) npages - max (sizeT e.addr / pgSize) 1 = 0 by omega]
      rfl
    · rfl
  · rw [if_neg htype, if_neg htype]
    rfl

theorem freeRegions_eq (L : Layout) (npages : Nat) : ∀ (es : List E820E) (b : Bitmap),
    es.foldlM (freeRegion L.kbrk npages) (some b) =
      (es.flatMap (freedPages L npages)).foldlM bitmapUnmark b >>= fun b' => .ok (some b') := by
  intro es
  induction es with
  | nil => exact fun b => rfl
  | cons e es ih =>
    intro b
    rw [List.foldlM_cons, freeRegion_eq, List.flatMap_cons, List.foldlM_append]
    cases (freedPages L npages e).foldlM bitmapUnmark b with
    | error e => rfl
    | ok b' => exact ih b'

end

/-! ## The pages that are left clear -/

section
variable {L : Layout} {M : E820Map} {e : E820E} {p : Nat}

instance : Std.Symm (NoShare L M) := ⟨fun _ _ h p hin hr hr' => h p hin hr' hr⟩

theorem ramSize_lt (entries : List E820E) : ramSize entries < 2 ^ 32 := by
  have hmax : ∀ (es : List E820E) (ram : Nat), ram < 2 ^ 32 →
      es.foldl (fun ram e => max ram (sizeT e.stop)) ram < 2 ^ 32 := by
    intro es
    induction es with
    | nil => exact fun ram h => h
    | cons e es ih => exact fun ram h => ih _ (max_lt h (Nat.mod_lt _ (by decide)))
  exact hmax entries 0 (by decide)

/-- The loops come to the pages that are in reach, for the regions that reach them. -/
theorem mem_freedPages (hstop : e.addr + e.len ≤ 2 ^ 32) :
    p ∈ freedPages L (ramSize M.entries / pgSize) e ↔ InReach L M p ∧ e.Reaches p := by
  obtain ⟨-, hmod, hle⟩ := L.kbrkPa_bounds
  have hpos : 0 < pgSize := by decide
  have hpage : 1 ≤ L.kbrkPa / pgSize := (Nat.one_le_div_iff hpos).2 hle
  have hend : e.stop = e.addr + e.len := Nat.mod_eq_of_lt (by omega)
  rw [freedPages, InReach, E820E.Reaches]
  by_cases htype : e.type = e820Available
  · rw [if_pos htype, List.mem_filter, List.mem_range'_1, decide_eq_true_eq, hend, sizeT, sizeT]
    by_cases htop : e.addr + e.len = 2 ^ 32
    · rw [htop, Nat.mod_self, Nat.zero_div]
      constructor
      · rintro ⟨⟨hlo, hhi⟩, -⟩
        omega
      · rintro ⟨-, -, hne, -⟩
        exact absurd rfl hne
    · rw [Nat.mod_eq_of_lt (by omega),
        Nat.mod_eq_of_lt (by omega)]
      generalize e.addr / pgSize = lo at *
      generalize (e.addr + e.len) / pgSize = hi at *
      constructor
      · rintro ⟨⟨hlo, hhi⟩, hk⟩
        exact ⟨⟨hk, by omega⟩, htype, htop, by omega, by omega⟩
      · rintro ⟨⟨hk, hn⟩, -, -, hlo, hhi⟩
        omega
  · rw [if_neg htype]
    exact iff_of_false List.not_mem_nil fun h => htype h.2.1

theorem nodup_freedPages (n : Nat) : (freedPages L n e).Nodup := by
  rw [freedPages]
  split
  · exact (List.nodup_range').filter _
  · exact List.nodup_nil

theorem nodup_freed_iff :
    (M.entries.flatMap (freedPages L (ramSize M.entries / pgSize))).Nodup ↔
      M.entries.Pairwise (NoShare L M) := by
  rw [List.nodup_flatMap, and_iff_right fun e _ => nodup_freedPages _, List.pairwise_iff_getElem,
    List.pairwise_iff_getElem]
  refine forall_congr' fun i => forall_congr' fun j => forall_congr' fun hi =>
    forall_congr' fun hj =>
    forall_congr' fun _ => ?_
  have hei := M.stop_le _ (List.getElem_mem hi)
  have hej := M.stop_le _ (List.getElem_mem hj)
  constructor
  · intro hdisj p hin hp hp'
    exact hdisj ((mem_freedPages hei).2 ⟨hin, hp⟩) ((mem_freedPages hej).2 ⟨hin, hp'⟩)
  · intro h p hp hp'
    obtain ⟨hin, hr⟩ := (mem_freedPages hei).1 hp
    exact h p hin hr ((mem_freedPages hej).1 hp').2

/-- **What `init_pmm` does**: it leaves clear the pages in reach that a region reaches, unless one
of them is reached for two regions. -/
theorem initPmm_cases (L : Layout) (M : E820Map) :
    (M.entries.Pairwise (NoShare L M) ∧
      ∃ physmap, initPmm L.kbrk M.entries = .ok (ramSize M.entries / pgSize, physmap) ∧
        ∀ p, p < ramSize M.entries / pgSize → ∃ b, physmap = some b ∧
          (b.has p = false ↔ InReach L M p ∧ ∃ e ∈ M.entries, e.Reaches p)) ∨
    (¬ M.entries.Pairwise (NoShare L M) ∧
      ∃ f, initPmm L.kbrk M.entries = .error f) := by
  rw [initPmm, pa2pm_eq]
  rcases Nat.eq_zero_or_pos (ramSize M.entries / pgSize) with hzero | hpos
  · have hskip : ∀ es : List E820E, es.foldlM (freeRegion L.kbrk 0) none = .ok none := by
      intro es
      induction es with
      | nil => rfl
      | cons e es ih =>
        rw [List.foldlM_cons, freeRegion]
        split
        · dsimp only
          rw [if_pos (Nat.zero_le _), ok_bind, ih]
        · rw [ok_bind, ih]
    refine .inl ⟨?_, none, ?_, fun p hp => absurd hp (by omega)⟩
    · exact List.Pairwise.imp (fun _ p hin => by
        rw [InReach, hzero] at hin
        exact absurd hin.2 (Nat.not_lt_zero p)) (List.pairwise_of_forall fun _ _ => trivial)
    · rw [hzero, show bitmapCreate 0 = .ok none from rfl, ok_bind, markPages, ok_bind,
        hskip, ok_bind]
  · obtain ⟨b, hcreate, hwf, hbits, hempty⟩ := bitmapCreate_ok hpos
      (by have := ramSize_lt M.entries; rw [pgSize]; omega)
    obtain ⟨b', hmark, hwf', hbits', hfull⟩ := markPages_ok hwf
      ((Nat.zero_add _).trans hbits.symm) fun p hp =>
        (hempty p (hbits ▸ hp)).trans (decide_eq_false (Nat.not_lt_zero p)).symm
    rw [hcreate, ok_bind, hmark, ok_bind, freeRegions_eq]
    have hlt : ∀ p ∈ M.entries.flatMap (freedPages L (ramSize M.entries / pgSize)),
        p < b'.bits := by
      intro p hp
      obtain ⟨e, he, hp⟩ := List.mem_flatMap.1 hp
      rw [hbits', hbits]
      exact ((mem_freedPages (M.stop_le e he)).1 hp).1.2
    have hall : ∀ p ∈ M.entries.flatMap (freedPages L (ramSize M.entries / pgSize)),
        b'.has p = true := fun p hp => hfull p (hbits' ▸ hlt p hp)
    rcases unmarkPages_cases hwf' hlt with ⟨⟨hnodup, -⟩, b'', hrun, hb''⟩ | ⟨hnot, f, hrun⟩
    · refine .inl ⟨nodup_freed_iff.1 hnodup, some b'', ?_, fun p hp => ⟨b'', rfl, ?_⟩⟩
      · rw [hrun]
        rfl
      · rw [hb'', hfull p (hbits.symm ▸ hp), Bool.true_and, Bool.not_eq_false', decide_eq_true_eq,
          List.mem_flatMap]
        constructor
        · rintro ⟨e, he, hp⟩
          obtain ⟨hin, hr⟩ := (mem_freedPages (M.stop_le e he)).1 hp
          exact ⟨hin, e, he, hr⟩
        · rintro ⟨hin, e, he, hr⟩
          exact ⟨e, he, (mem_freedPages (M.stop_le e he)).2 ⟨hin, hr⟩⟩
    · refine .inr ⟨fun h => hnot ⟨nodup_freed_iff.2 h, hall⟩, f, ?_⟩
      rw [hrun]
      rfl

theorem E820E.Reaches.of_contains {x : Nat} (htype : e.type = e820Available)
    (htop : e.addr + e.len ≠ 2 ^ 32) (hlo : p * pgSize ≤ x) (hhi : x < (p + 1) * pgSize)
    (hx : e.Contains x) : e.Reaches p := by
  refine ⟨htype, htop, ?_, ?_⟩
  · rw [← Nat.lt_succ_iff, Nat.div_lt_iff_lt_mul (by decide)]
    exact lt_of_le_of_lt hx.1 hhi
  · rw [Nat.le_div_iff_mul_le (by decide)]
    exact hlo.trans hx.2.le

theorem PmmSafe.cond (h : PmmSafe L M) : PmmCond L M := by
  obtain ⟨npages, physmap, hrun, hsafe⟩ := h
  rcases initPmm_cases L M with ⟨honce, physmap', hok, hclear⟩ | ⟨-, f, herror⟩
  · obtain ⟨rfl, rfl⟩ := Prod.mk.inj (Except.ok.inj (hok.symm.trans hrun))
    refine ⟨honce, fun e he p hin hr x hlo hhi => ?_⟩
    obtain ⟨b, hb, hhas⟩ := hclear p hin.2
    obtain ⟨e', he', htype, hx⟩ := (hsafe p b hin.2 hb (hhas.2 ⟨hin, e, he, hr⟩)).1 x hlo hhi
    by_cases htop : e'.addr + e'.len = 2 ^ 32
    · exact .inr ⟨e', he', htype, htop, hx.1⟩
    · -- the region of the byte reaches the page too, so that it is the same region
      by_cases heq : e = e'
      · exact .inl (heq ▸ hx)
      · exact absurd (E820E.Reaches.of_contains htype htop hlo hhi hx)
          (honce.forall he he' heq p hin hr)
  · exact nomatch herror.symm.trans hrun

theorem PmmCond.safe (h : PmmCond L M) : PmmSafe L M := by
  obtain ⟨-, hmod, hle⟩ := L.kbrkPa_bounds
  rcases initPmm_cases L M with ⟨-, physmap, hok, hclear⟩ | ⟨hnot, -⟩
  · refine ⟨_, physmap, hok, fun p b hp hb hhas => ?_⟩
    obtain ⟨b', hb', hiff⟩ := hclear p hp
    cases hb.symm.trans hb'
    obtain ⟨hin, e, he, hr⟩ := hiff.1 hhas
    have hpage : L.kbrkPa ≤ p * pgSize := by
      have := hin.1
      rw [pgSize] at *
      omega
    refine ⟨fun x hlo hhi => ?_, ?_, hpage⟩
    · rcases h.available e he p hin hr x hlo hhi with hx | ⟨e', he', htype, htop, hx⟩
      · exact ⟨e, he, hr.1, hx⟩
      · refine ⟨e', he', htype, hx, ?_⟩
        have := ramSize_lt M.entries
        rw [pgSize] at *
        omega
    · rintro rfl
      rw [Nat.zero_mul] at hpage
      exact absurd (hle.trans hpage) (by decide)
  · exact absurd h.once hnot

/-- **Only usable memory is freed** by `init_pmm` if and only if the map meets the condition. -/
theorem pmmSafe_iff (L : Layout) (M : E820Map) : PmmSafe L M ↔ PmmCond L M :=
  ⟨PmmSafe.cond, PmmCond.safe⟩

/-- Without an available region that ends at 4 GiB, the condition is about the two ends of each
available region: the page of the end is not in reach, and the start is at the start of a page if
that page is. -/
theorem pmmCond_iff_ordinary
    (htop : ∀ e ∈ M.entries, e.type = e820Available → e.addr + e.len ≠ 2 ^ 32) :
    PmmCond L M ↔ ∀ e ∈ M.entries, e.type = e820Available →
      ¬ InReach L M ((e.addr + e.len) / pgSize) ∧
      (InReach L M (e.addr / pgSize) → e.addr % pgSize = 0) := by
  have hmono : ∀ e : E820E, e.addr / pgSize ≤ (e.addr + e.len) / pgSize := fun e =>
    Nat.div_le_div_right (Nat.le_add_right _ _)
  constructor
  · intro h e he htype
    have hinside : ∀ p x, InReach L M p → e.Reaches p → p * pgSize ≤ x → x < (p + 1) * pgSize →
        e.Contains x := by
      intro p x hin hr hlo hhi
      rcases h.available e he p hin hr x hlo hhi with hx | ⟨e', he', htype', htop', -⟩
      · exact hx
      · exact absurd htop' (htop e' he' htype')
    refine ⟨fun hin => ?_, fun hin => ?_⟩
    · have hx := hinside _ (e.addr + e.len) hin ⟨htype, htop e he htype, hmono e, le_rfl⟩
        (Nat.div_mul_le_self _ _) ((Nat.div_lt_iff_lt_mul (by decide)).1 (Nat.lt_succ_self _))
      exact absurd hx.2 (Nat.lt_irrefl _)
    · have hx := hinside _ (e.addr / pgSize * pgSize) hin ⟨htype, htop e he htype, le_rfl, hmono e⟩
        le_rfl (Nat.mul_lt_mul_of_pos_right (Nat.lt_succ_self _) (by decide))
      have := hx.1
      rw [pgSize] at *
      omega
  · intro h
    have hinside : ∀ e ∈ M.entries, ∀ p, InReach L M p → e.Reaches p →
        ∀ x, p * pgSize ≤ x → x < (p + 1) * pgSize → e.Contains x := by
      rintro e he p hin ⟨htype, -, hlo, hhi⟩ x hx hx'
      obtain ⟨hend, hstart⟩ := h e he htype
      have hne : p ≠ (e.addr + e.len) / pgSize := fun heq => hend (heq ▸ hin)
      have hstart' : p = e.addr / pgSize → e.addr % pgSize = 0 := fun heq => hstart (heq ▸ hin)
      rw [E820E.Contains]
      rw [pgSize] at *
      omega
    refine ⟨M.disjoint.imp_of_mem fun he he' hdisj p hin hr hr' => ?_, fun e he p hin hr x hx hx' =>
      .inl (hinside e he p hin hr x hx hx')⟩
    have hlt : p * pgSize < (p + 1) * pgSize :=
      Nat.mul_lt_mul_of_pos_right (Nat.lt_succ_self p) (by decide)
    exact hdisj _ (hinside _ he p hin hr _ le_rfl hlt) (hinside _ he' p hin hr' _ le_rfl hlt)

/-- 12 MB of memory, with a reserved region after them. -/
def reservedAbove : E820Map where
  entries := [⟨0, 0xC00000, e820Available⟩, ⟨0xC00000, 0x400000, e820Reserved⟩]
  size_le := by decide
  disjoint := by
    refine List.pairwise_pair.2 fun x hx hx' => ?_
    have hlt := hx.2
    have hle := hx'.1
    dsimp only at hlt hle
    omega
  stop_le := by decide

/-- The first page of the reserved region is freed. -/
theorem not_pmmSafe_reservedAbove : ¬ PmmSafe ⟨0xC0100000, by decide, by decide⟩ reservedAbove := by
  intro h
  have hin : InReach ⟨0xC0100000, by decide, by decide⟩ reservedAbove 0xC00 := by
    rw [InReach]
    decide +kernel
  have hr : E820E.Reaches ⟨0, 0xC00000, e820Available⟩ 0xC00 := by
    rw [E820E.Reaches]
    decide +kernel
  rcases h.cond.available _ List.mem_cons_self _ hin hr 0xC00000 (by decide) (by decide) with
    hx | ⟨e, he, -, htop, -⟩
  · exact absurd hx.2 (by decide)
  · revert e
    decide

end

end JinxOS
