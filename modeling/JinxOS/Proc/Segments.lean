import JinxOS.Proc.LoadEffect

/-!
# The segments of a program in memory

`load_icode` loads the segments of an image one after another.  For each of them `region_alloc` maps
its pages, `memcpy` writes the bytes of the file and `memset` the zeros behind them.  All three work
with virtual addresses; where the bytes go is up to the pages that have just been mapped.

* `Placed.storeBytes` — `memcpy` and `memset` write what they should to mapped pages, and because
  different addresses have different bytes (`Placed.cell_ne`) nothing else;
* `HasSegment` — the bytes of a segment are in memory; this stays so while other segments are
  loaded;
* `Mappable` — when segments can be mapped one after another: no two of them may share a page
  (`mappable_iff`);
* `loadSegments_cases`, `loadIcode_cases` — the outcome of the loop and of `load_icode`.
-/

namespace JinxOS

/-! ## Bytes of the process -/

variable {dirs : Nat → Prop} {shared : Fin 1024 → Prop} {d : Nat} {s s' : Vmm} {t t' : Tables}
  {cover : Nat → Prop}

/-- The byte at an address of the directory `d`, if it is mapped. -/
def ByteAt (t : Tables) (d : Nat) (m : ByteMem) (x : Nat) : Option UInt8 :=
  (TablesAt t d x).map fun q => m (pm2va q.2.frame + x % pgSize)

/-- **What the hardware reads.** -/
theorem PageTables.readByte_eq (h : PageTables dirs shared s t) (hd : dirs d) (x : Nat) :
    s.readByte (pm2va d) x = ByteAt t d s.mem x := by
  rw [Vmm.readByte, h.translate_eq hd, ByteAt, TablesAt, Option.map_map]
  rfl

theorem byteAt_some {q : Pte × Pte} {x : Nat} (h : TablesAt t d x = some q) (m : ByteMem) :
    ByteAt t d m x = some (m (pm2va q.2.frame + x % pgSize)) := by
  rw [ByteAt, h, Option.map_some]

section
variable (h : Placed dirs shared d cover s t s' t')
include h

/-- **Bytes that are there stay.** -/
theorem Placed.byteAt_eq {x : Nat} (hx : x < 2 ^ 32) {q : Pte × Pte} (hq : TablesAt t d x = some q)
    (hdata : Data dirs s t q.2.frame) : ByteAt t' d s'.mem x = ByteAt t d s.mem x := by
  have hcov : ¬ cover x := fun hcov => nomatch (h.before x hx hcov).symm.trans hq
  have hq' : TablesAt t' d x = some q := (h.rest d x hx (.inl hcov)).trans hq
  rw [byteAt_some hq, byteAt_some hq', h.keeps _ hdata _ (Nat.le_add_right ..)
    (Nat.add_lt_add_left (Nat.mod_lt _ (by decide)) _)]

theorem Placed.cell_ne {x y : Nat} (hx : x < 2 ^ 32)
    (hy : y < 2 ^ 32) (hcx : cover x) (hcy : cover y) (hne : x ≠ y) {q q' : Pte × Pte}
    (hq : TablesAt t' d x = some q) (hq' : TablesAt t' d y = some q') :
    pm2va q.2.frame + x % pgSize ≠ pm2va q'.2.frame + y % pgSize := by
  have hlt : ∀ {x : Nat} {q : Pte × Pte}, x < 2 ^ 32 → cover x → TablesAt t' d x = some q →
      q.2.frame < 2 ^ 18 := by
    intro x q hx hcx hq
    obtain ⟨q1, hq1, -, hdata⟩ := h.after x hx hcx
    obtain rfl : q1 = q := Option.some.inj (hq1.symm.trans hq)
    exact lt_of_lt_of_le hdata.lt h.tables.bits_le
  have hsame := h.inj x y q q' hx hy hcx hcy hq hq'
  rw [pm2va_eq (hlt hx hcx hq), pm2va_eq (hlt hy hcy hq'), pgSize]
  omega

theorem Placed.writeByte (hd : dirs d) (hw : Writable t') {va : Nat} (hva : va < 2 ^ 32)
    (hcov : cover va) (b : UInt8) : ∃ m, s'.writeByte (pm2va d) va b = .ok (s'.setMem m) ∧
      Placed dirs shared d cover s t (s'.setMem m) t' ∧ ByteAt t' d m va = some b ∧
      ∀ x, x < 2 ^ 32 → cover x → x ≠ va → ByteAt t' d m x = ByteAt t' d s'.mem x := by
  obtain ⟨q, hq, hwrite, hdata⟩ := h.after va hva hcov
  have htr : s'.translate (pm2va d) va = some (.of q.1 q.2) := by
    rw [h.tables.translate_eq hd]
    rw [TablesAt] at hq
    rw [hq]
    rfl
  have hright : (Translation.of q.1 q.2).write = true := by
    rw [TablesAt] at hq
    obtain ⟨p, hp, hq'⟩ := Option.bind_eq_some_iff.1 hq
    obtain ⟨e, -, rfl⟩ := Option.map_eq_some_iff.1 hq'
    exact Bool.and_eq_true_iff.2 ⟨hw d _ p hp, hwrite⟩
  refine ⟨Function.update s'.mem (pm2va q.2.frame + va % pgSize) b, ?_,
    h.setByte hdata (h.unmarked va q hva hcov hq) (Nat.le_add_right _ (va % pgSize))
      (Nat.add_lt_add_left (Nat.mod_lt _ (by decide)) _) b, ?_, fun x hx hcx hne => ?_⟩
  · rw [Vmm.writeByte, htr]
    dsimp only
    rw [if_pos hright]
    rfl
  · rw [byteAt_some hq, Function.update_self]
  · obtain ⟨q', hq', -⟩ := h.after x hx hcx
    rw [byteAt_some hq', byteAt_some hq',
      Function.update_of_ne (h.cell_ne hx hva hcx hcov hne hq' hq)]

end

/-- **`memcpy` and `memset` return**, and write to the pages that have been mapped. -/
theorem Placed.storeBytes (hd : dirs d) (hw : Writable t') (byte : Nat → UInt8) :
    ∀ (count dp sp : Nat) {s' : Vmm}, Placed dirs shared d cover s t s' t' → dp + count < 2 ^ 32 →
      sp < 2 ^ 32 → (∀ x, dp ≤ x → x < dp + count → cover x) →
      ∃ m, JinxOS.storeBytes (pm2va d) byte count dp sp s' = .ok (s'.setMem m) ∧
        Placed dirs shared d cover s t (s'.setMem m) t' ∧
        (∀ k, k < count → ByteAt t' d m (dp + k) = some (byte (Word.add sp k))) ∧
        ∀ x, x < 2 ^ 32 → cover x → x < dp ∨ dp + count ≤ x →
          ByteAt t' d m x = ByteAt t' d s'.mem x := by
  intro count
  induction count with
  | zero =>
    exact fun dp sp s' h _ _ _ => ⟨s'.mem, rfl, h, fun k hk => absurd hk (Nat.not_lt_zero k),
      fun _ _ _ _ => rfl⟩
  | succ count ih =>
    intro dp sp s' h hend hsp hcov
    have hdp : cover dp := hcov dp le_rfl (by omega)
    obtain ⟨m, hrun, h1, hbyte, hrest⟩ := h.writeByte hd hw (by omega) hdp (byte sp)
    obtain ⟨m', hrun', h2, hbytes, hrest'⟩ := ih (dp + 1) (Word.add sp 1) h1 (by omega)
      (Word.add_lt ..) fun x hx hx' => hcov x (by omega) (by omega)
    refine ⟨m', ?_, h2, fun k hk => ?_, fun x hx hcx hout => ?_⟩
    · rw [JinxOS.storeBytes, hrun, ok_bind, Word.add_eq, hrun']
      rfl
    · cases k with
      | zero =>
        have hsp0 : Word.add sp 0 = sp := Word.add_eq hsp
        rw [Nat.add_zero, hrest' dp (by omega) hdp (.inl (Nat.lt_succ_self dp)), hsp0]
        exact hbyte
      | succ k =>
        have hadd : Word.add (Word.add sp 1) k = Word.add sp (k + 1) := by
          rw [Word.add, Word.add, Word.add]
          omega
        rw [← hadd, ← hbytes k (by omega), Nat.add_assoc, Nat.add_comm 1 k]
    · rw [hrest' x hx hcx (by omega)]
      exact hrest x hx hcx (by omega)

/-! ## Segments -/

/-- The sizes and addresses of a program header are words. -/
structure Prog.Words (ph : Prog) : Prop where
  vaddr : ph.vaddr < 2 ^ 32
  memsz : ph.memsz < 2 ^ 32

theorem words_of_mem_progs {image : ByteMem} {elf : Nat} {ph : Prog} (h : ph ∈ progs image elf) :
    ph.Words := by
  rw [progs] at h
  split at h
  · obtain ⟨k, -, rfl⟩ := List.mem_map.1 h
    exact ⟨ByteMem.load_lt .., ByteMem.load_lt ..⟩
  · exact absurd h List.not_mem_nil

/-- What is asserted of a segment, whatever is mapped already. -/
def Prog.Ok (ph : Prog) : Prop := ph.filesz ≤ ph.memsz ∧ RegionOk ph.vaddr ph.memsz

/-- The pages of a segment. -/
def Prog.Covers (ph : Prog) (x : Nat) : Prop := RegionCover ph.vaddr ph.memsz x

/-- The byte of a segment at an offset: a byte of the image, or zero. -/
def segByte (image : ByteMem) (binary : Nat) (ph : Prog) (k : Nat) : UInt8 :=
  if k < ph.filesz then image (Word.add (Word.add binary ph.offset) k) else 0

/-- The bytes of a segment are in the memory of the process, in pages for data. -/
def HasSegment (dirs : Nat → Prop) (s : Vmm) (t : Tables) (d : Nat) (image : ByteMem) (binary : Nat)
    (ph : Prog) : Prop :=
  ∀ k, k < ph.memsz → ph.vaddr + k < 2 ^ 32 ∧
    (∃ q, TablesAt t d (ph.vaddr + k) = some q ∧ Data dirs s t q.2.frame) ∧
    ByteAt t d s.mem (ph.vaddr + k) = some (segByte image binary ph k)

theorem HasSegment.placed {image : ByteMem} {binary : Nat} {ph : Prog}
    (h : HasSegment dirs s t d image binary ph) (hp : Placed dirs shared d cover s t s' t') :
    HasSegment dirs s' t' d image binary ph := by
  intro k hk
  obtain ⟨hlt, ⟨q, hq, hdata⟩, hbyte⟩ := h k hk
  have hcov : ¬ cover (ph.vaddr + k) := fun hcov => nomatch (hp.before _ hlt hcov).symm.trans hq
  refine ⟨hlt, ⟨q, (hp.rest d _ hlt (.inl hcov)).trans hq, hdata.grows hp.toGrows⟩, ?_⟩
  rw [hp.byteAt_eq hlt hq hdata]
  exact hbyte

/-- **A segment** is loaded to fresh pages. -/
theorem loadSegment_cases (h : PageTables dirs shared s t) (hd : dirs d) (hw : Writable t)
    {ph : Prog} (hph : ph.Words) (image : ByteMem) (binary : Nat) :
    (loadSegment image binary (pm2va d) ph s = .error ppPanic ∧
      ∀ m, ¬ s.physmap.Free (m + 2 * regionPages ph.vaddr ph.memsz)) ∨
    (¬ (ph.Ok ∧ ∀ x, ph.Covers x → TablesAt t d x = none) ∧
      ∃ e, loadSegment image binary (pm2va d) ph s = .error (.assertFailed e) ∧
        (ph.Ok → e = "!pg->present")) ∨
    (ph.Ok ∧ ∃ s' t', loadSegment image binary (pm2va d) ph s = .ok s' ∧
      Placed dirs shared d ph.Covers s t s' t' ∧ HasSegment dirs s' t' d image binary ph ∧
      ∀ m, s.physmap.Free (m + 2 * regionPages ph.vaddr ph.memsz) → s'.physmap.Free m) := by
  rw [loadSegment]
  by_cases hsize : ph.filesz ≤ ph.memsz
  swap
  · refine .inr (.inl ⟨fun hboth => hsize hboth.1.1, "ph->filesz <= ph->memsz", ?_,
      fun hok => absurd hok.1 hsize⟩)
    rw [decide_eq_false hsize]
    rfl
  rw [decide_eq_true hsize, assert_true, ok_bind]
  rcases regionAlloc_cases h hd hph.vaddr hph.memsz with
    ⟨hrun, hfull⟩ | ⟨hnot, e, hrun, hwhy⟩ | ⟨hok, s1, t1, hrun, hplaced, hfree⟩
  · exact .inl ⟨by rw [hrun, error_bind], hfull⟩
  · exact .inr (.inl ⟨fun hboth => hnot ⟨hboth.1.2, hboth.2⟩, e,
      by rw [hrun, error_bind], fun hok => hwhy hok.2⟩)
  · have hw1 : Writable t1 := hplaced.toGrows.writable hw
    have hend : ph.vaddr + ph.memsz < 2 ^ 32 := by
      have := hok.2.2
      omega
    have hcov : ∀ x, ph.vaddr ≤ x → x < ph.vaddr + ph.memsz → ph.Covers x := by
      intro x hx hx'
      rw [Prog.Covers, RegionCover]
      omega
    obtain ⟨m, hcopy, hplaced2, hfile, -⟩ := Placed.storeBytes hd hw1 image ph.filesz ph.vaddr
      (Word.add binary ph.offset) hplaced (by omega) (Word.add_lt ..)
      fun x hx hx' => hcov x hx (by omega)
    obtain ⟨m', hset, hplaced3, hzero, hrest⟩ := Placed.storeBytes hd hw1 (fun _ => 0)
      (ph.memsz - ph.filesz) (ph.vaddr + ph.filesz) 0 hplaced2 (by omega) (by decide)
      fun x hx hx' => hcov x (by omega) (by omega)
    refine .inr (.inr ⟨⟨hsize, hok⟩, _, t1, ?_, hplaced3, fun k hk => ?_, hfree⟩)
    · rw [hrun, ok_bind, memcpy, hcopy, ok_bind, memset, Word.add_eq,
        Word.sub_eq hsize hph.memsz, hset]
    · have hcovk : ph.Covers (ph.vaddr + k) := hcov _ (by omega) (by omega)
      obtain ⟨q, hq, -, hdata⟩ := hplaced3.after (ph.vaddr + k) (by omega) hcovk
      refine ⟨by omega, ⟨q, hq, hdata⟩, ?_⟩
      rw [segByte]
      by_cases hkf : k < ph.filesz
      · rw [if_pos hkf, ← hfile k hkf]
        exact hrest _ (by omega) hcovk (.inl (by omega))
      · rw [if_neg hkf, ← hzero (k - ph.filesz) (by omega), Vmm.mem_setMem,
          show ph.vaddr + ph.filesz + (k - ph.filesz) = ph.vaddr + k by omega]

/-! One segment after another. -/

/-- The segments can be mapped one after another, where `free` says which addresses are not mapped.
-/
def Mappable (free : Nat → Prop) : List Prog → Prop
  | [] => True
  | ph :: l => ph.Ok ∧ (∀ x, ph.Covers x → free x) ∧ Mappable (fun x => free x ∧ ¬ ph.Covers x) l

theorem Mappable.congr {l : List Prog} : ∀ {free free' : Nat → Prop},
    (∀ x, x < 2 ^ 32 → (free x ↔ free' x)) → Mappable free l → Mappable free' l := by
  induction l with
  | nil => exact fun _ _ => trivial
  | cons ph l ih =>
    rintro free free' hiff ⟨hok, hfree, hrest⟩
    refine ⟨hok, fun x hx => (hiff x (hok.2.lt hx)).1 (hfree x hx), ih (fun x hx => ?_) hrest⟩
    rw [hiff x hx]

theorem Placed.unmapped_iff (h : Placed dirs shared d cover s t s' t') {x : Nat} (hx : x < 2 ^ 32) :
    TablesAt t' d x = none ↔ TablesAt t d x = none ∧ ¬ cover x := by
  by_cases hcov : cover x
  · obtain ⟨q, hq, -⟩ := h.after x hx hcov
    simp [hq, hcov]
  · rw [h.rest d x hx (.inl hcov)]
    simp [hcov]

/-- The number of pages of the segments, each counted by itself. -/
def segPages (l : List Prog) : Nat := (l.map fun ph => regionPages ph.vaddr ph.memsz).sum

/-- **The segments** are loaded if they can be mapped, and then their bytes are there. -/
theorem loadSegments_cases (hd : dirs d) (image : ByteMem) (binary : Nat) :
    ∀ (l : List Prog) {s : Vmm} {t : Tables}, (∀ ph ∈ l, ph.Words) → PageTables dirs shared s t →
      Writable t →
      (l.foldlM (fun s ph => loadSegment image binary (pm2va d) ph s) s = .error ppPanic ∧
        ∀ m, ¬ s.physmap.Free (m + 2 * segPages l)) ∨
      (¬ Mappable (fun x => TablesAt t d x = none) l ∧
        ∃ e, l.foldlM (fun s ph => loadSegment image binary (pm2va d) ph s) s =
          .error (.assertFailed e) ∧ ((∀ ph ∈ l, ph.Ok) → e = "!pg->present")) ∨
      (Mappable (fun x => TablesAt t d x = none) l ∧ ∃ s' t',
        l.foldlM (fun s ph => loadSegment image binary (pm2va d) ph s) s = .ok s' ∧
        Placed dirs shared d (fun x => ∃ ph ∈ l, ph.Covers x) s t s' t' ∧
        (∀ ph ∈ l, HasSegment dirs s' t' d image binary ph) ∧
        ∀ m, s.physmap.Free (m + 2 * segPages l) → s'.physmap.Free m) := by
  intro l
  induction l with
  | nil =>
    intro s t _ h _
    exact .inr (.inr ⟨trivial, s, t, rfl, .refl h (by simp), by simp, fun m hm => hm⟩)
  | cons ph l ih =>
    intro s t hl h hw
    have hpages : ∀ m, m + 2 * segPages (ph :: l) =
        m + 2 * segPages l + 2 * regionPages ph.vaddr ph.memsz := by
      intro m
      rw [segPages, List.map_cons, List.sum_cons, segPages]
      omega
    simp only [hpages]
    rw [List.foldlM_cons, Mappable]
    rcases loadSegment_cases h hd hw (hl ph List.mem_cons_self) image binary with
      ⟨hrun, hfull⟩ | ⟨hnot, e, hrun, hwhy⟩ | ⟨hok, s1, t1, hrun, hplaced, hseg, hfree⟩
    · exact .inl ⟨by rw [hrun, error_bind], fun m => hfull _⟩
    · exact .inr (.inl ⟨fun hmap => hnot ⟨hmap.1, hmap.2.1⟩, e,
        by rw [hrun, error_bind], fun hall => hwhy (hall ph List.mem_cons_self)⟩)
    · have hfirst : ∀ x, ph.Covers x → TablesAt t d x = none := fun x hx =>
        hplaced.before x (hok.2.lt hx) hx
      have hiff : ∀ x, x < 2 ^ 32 →
          (TablesAt t1 d x = none ↔ TablesAt t d x = none ∧ ¬ ph.Covers x) :=
        fun x hx => hplaced.unmapped_iff hx
      rw [hrun, ok_bind]
      rcases ih (fun b hb => hl b (List.mem_cons_of_mem _ hb)) hplaced.tables
          (hplaced.toGrows.writable hw) with
        ⟨hrun', hfull⟩ | ⟨hnot, e, hrun', hwhy⟩ | ⟨hmap, s', t', hrun', hplaced', hsegs, hfree'⟩
      · exact .inl ⟨hrun', fun m hm => hfull m (hfree _ hm)⟩
      · exact .inr (.inl ⟨fun hmap => hnot (hmap.2.2.congr fun x hx => (hiff x hx).symm), e,
          hrun', fun hall => hwhy fun b hb => hall b (List.mem_cons_of_mem _ hb)⟩)
      · refine .inr (.inr ⟨⟨hok, hfirst, hmap.congr hiff⟩, s', t', hrun',
          (hplaced.trans hplaced').congr fun x _ => ?_, fun b hb => ?_,
          fun m hm => hfree' m (hfree _ hm)⟩)
        · simp
        · rcases List.mem_cons.1 hb with rfl | hb
          · exact hseg.placed hplaced'
          · exact hsegs b hb

/-! ## `load_icode` -/

variable {image : ByteMem} {binary : Nat} {ws : List (Nat × UInt8)}

theorem Fills.writes : ∀ (ws : List (Nat × UInt8)) {s' : Vmm}, Fills dirs shared d cover s t s' t' →
    (∀ w ∈ ws, ∃ f, Data dirs s t f ∧ pm2va f ≤ w.1 ∧ w.1 < pm2va f + pgSize) →
    Fills dirs shared d cover s t (s'.writes ws) t' ∧ (s'.writes ws).physmap = s'.physmap := by
  intro ws
  induction ws with
  | nil => exact fun h _ => ⟨h, rfl⟩
  | cons w ws ih =>
    intro s' h hws
    obtain ⟨f, hf, hx, hx'⟩ := hws w List.mem_cons_self
    exact ih (h.setByte (hf.grows h.toGrows) hx hx' w.2) fun w' hw' =>
      hws w' (List.mem_cons_of_mem _ hw')

theorem SamePage.writes {f : Nat} (hf : f < 2 ^ 18) : ∀ (ws : List (Nat × UInt8)) (s : Vmm),
    (∀ w ∈ ws, ∃ g, g < 2 ^ 18 ∧ f ≠ g ∧ pm2va g ≤ w.1 ∧ w.1 < pm2va g + pgSize) →
    SamePage f s.mem (s.writes ws).mem := by
  intro ws
  induction ws with
  | nil => exact fun s _ _ _ _ => rfl
  | cons w ws ih =>
    intro s hws
    obtain ⟨g, hg, hne, hx, hx'⟩ := hws w List.mem_cons_self
    have hfirst := SamePage.setByte hf hg hne hx hx' s.mem w.2
    exact hfirst.trans (ih (s.setMem (Function.update s.mem w.1 w.2)) fun w' hw' =>
      hws w' (List.mem_cons_of_mem _ hw'))

/-- The kernel does not write to the pages of the segments: they were not in use before. -/
theorem HasSegment.writes {ph : Prog} (h : HasSegment dirs s' t' d image binary ph)
    (hp : Placed dirs shared d cover s t s' t') (hcov : ∀ k, k < ph.memsz → cover (ph.vaddr + k))
    (hws : ∀ w ∈ ws, ∃ f, Data dirs s t f ∧ pm2va f ≤ w.1 ∧ w.1 < pm2va f + pgSize)
    (hphys : (s'.writes ws).physmap = s'.physmap) :
    HasSegment dirs (s'.writes ws) t' d image binary ph := by
  intro k hk
  obtain ⟨hlt, ⟨q, hq, hdata⟩, hbyte⟩ := h k hk
  have hfree := hp.unmarked _ q hlt (hcov k hk) hq
  have hsame : SamePage q.2.frame s'.mem (s'.writes ws).mem := by
    refine .writes (lt_of_lt_of_le hdata.lt hp.tables.bits_le) ws s' fun w hw => ?_
    obtain ⟨g, hg, hx, hx'⟩ := hws w hw
    refine ⟨g, lt_of_lt_of_le (hg.grows hp.toGrows).lt hp.tables.bits_le, fun he => ?_, hx, hx'⟩
    rw [he, hg.used] at hfree
    exact nomatch hfree
  refine ⟨hlt, ⟨q, hq, hphys.symm ▸ hdata.lt, hphys.symm ▸ hdata.used, hdata.not_dir,
    hdata.unused⟩, ?_⟩
  rw [← hbyte, byteAt_some hq, byteAt_some hq, hsame _ (Nat.le_add_right ..)
    (Nat.add_lt_add_left (Nat.mod_lt _ (by decide)) _)]

/-- The addresses of the segments of a list of program headers. -/
def Segments (l : List Prog) (x : Nat) : Prop :=
  ∃ ph ∈ l, ph.type = ptLoad ∧ RegionCover ph.vaddr ph.memsz x

theorem segments_iff {elf x : Nat} :
    Segments (progs image elf) x ↔ ∃ ph ∈ loads image elf, ph.Covers x := by
  simp [Segments, loads, Prog.Covers, and_assoc]

/-- The addresses of the page of the stack. -/
def StackCover (x : Nat) : Prop := RegionCover (ustackTop - pgSize) pgSize x

/-- The addresses that are mapped when a program is loaded: its segments and the page of its stack.
-/
def Loaded (image : ByteMem) (binary x : Nat) : Prop :=
  Segments (progs image binary) x ∨ RegionCover (ustackTop - pgSize) pgSize x

/-- The segments and the stack can be mapped. -/
def LoadOk (t : Tables) (d : Nat) (image : ByteMem) (binary : Nat) : Prop :=
  Mappable (fun x => TablesAt t d x = none) (loads image binary) ∧
    ∀ x, StackCover x → TablesAt t d x = none ∧ ∀ ph ∈ loads image binary, ¬ ph.Covers x

theorem paddr_ok {va : Nat} (h : kaddr ≤ va) : paddr va = .ok (Word.sub va kaddr) :=
  if_neg (Nat.not_lt.2 h)

section
variable (h : PageTables dirs shared s t) (hd : dirs d) (hw : Writable t) (hkpd : kaddr ≤ s.kpd)
include h hd hw hkpd

/-- **`load_icode`** maps the segments and the stack to fresh pages and leaves the bytes of the
segments there, if it can. -/
theorem loadIcode_cases (hbinary : binary ≠ 0) (hmagic : image.load binary = elfMagic)
    (hws : ∀ w ∈ ws, ∃ f, Data dirs s t f ∧ pm2va f ≤ w.1 ∧ w.1 < pm2va f + pgSize) :
    (loadIcode s (pm2va d) image binary ws = .error ppPanic ∧
      ∀ m, ¬ s.physmap.Free (m + 2 * (segPages (loads image binary) + 1))) ∨
    (¬ LoadOk t d image binary ∧
      ∃ e, loadIcode s (pm2va d) image binary ws = .error (.assertFailed e) ∧
        ((∀ ph ∈ loads image binary, ph.Ok) → e = "!pg->present")) ∨
    (LoadOk t d image binary ∧ ∃ s' t', loadIcode s (pm2va d) image binary ws = .ok s' ∧
      Fills dirs shared d (Loaded image binary) s t s' t' ∧
      ∀ ph ∈ loads image binary, HasSegment dirs s' t' d image binary ph) := by
  have hpd : kaddr ≤ pm2va d := by
    rw [pm2va_eq (h.dir_lt hd), kaddr]
    omega
  have hwords : ∀ ph ∈ loads image binary, ph.Words := fun ph hph =>
    words_of_mem_progs (List.mem_filter.1 hph).1
  rw [loadIcode, bne_iff_ne.2 hbinary, assert_true, ok_bind, beq_iff_eq.2 hmagic,
    assert_true, ok_bind, paddr_ok hpd, ok_bind]
  dsimp only
  rw [loadLoop_loads]
  rcases loadSegments_cases hd image binary (loads image binary) hwords h hw with
    ⟨hrun, hfull⟩ | ⟨hnot, e, hrun, hwhy⟩ | ⟨hmap, s1, t1, hrun, hplaced, hsegs, hfree⟩
  · refine .inl ⟨by rw [hrun, error_bind], fun m hm => hfull (m + 2) ?_⟩
    rwa [show m + 2 + 2 * segPages (loads image binary) =
      m + 2 * (segPages (loads image binary) + 1) by omega]
  · exact .inr (.inl ⟨fun hok => hnot hok.1, e, by rw [hrun, error_bind], hwhy⟩)
  have hkpd1 : kaddr ≤ s1.kpd := hplaced.same.kpd.symm ▸ hkpd
  obtain ⟨hfills, hphys⟩ := hplaced.toFills.writes ws hws
  have hstack : ∀ x, StackCover x → x < 2 ^ 32 := by
    intro x hx
    rw [StackCover, RegionCover, show ustackTop - pgSize = 0xBEBFD000 from rfl, pgSize] at hx
    omega
  rw [hrun, ok_bind, paddr_ok hkpd1, ok_bind,
    show Word.sub ustackTop pgSize = ustackTop - pgSize from rfl]
  rcases regionAlloc_cases hfills.tables hd (by decide : ustackTop - pgSize < 2 ^ 32)
      (by decide : pgSize < 2 ^ 32) with
    ⟨hrun', hfull⟩ | ⟨hnot, e, hrun', hwhy⟩ | ⟨-, s2, t2, hrun', hplaced', -⟩
  · refine .inl ⟨hrun', fun m hm => hfull m ?_⟩
    rw [hphys]
    refine hfree _ ?_
    rwa [show regionPages (ustackTop - pgSize) pgSize = 1 by decide,
      show m + 2 * 1 + 2 * segPages (loads image binary) =
        m + 2 * (segPages (loads image binary) + 1) by omega]
  · have hregion : RegionOk (ustackTop - pgSize) pgSize := by
      unfold RegionOk
      decide
    refine .inr (.inl ⟨fun hok => hnot ⟨hregion, fun x hx => ?_⟩, e, hrun',
      fun _ => hwhy hregion⟩)
    obtain ⟨hnone, hapart⟩ := hok.2 x hx
    exact (hplaced.unmapped_iff (hstack x hx)).2
      ⟨hnone, fun hin => hin.elim fun ph hph => hapart ph hph.1 hph.2⟩
  · refine .inr (.inr ⟨⟨hmap, fun x hx => ?_⟩, s2, t2, hrun',
      (hfills.trans hplaced'.toFills).congr fun x _ => or_congr_left segments_iff,
      fun ph hph => ?_⟩)
    · obtain ⟨hnone, hapart⟩ :=
        (hplaced.unmapped_iff (hstack x hx)).1 (hplaced'.before x (hstack x hx) hx)
      exact ⟨hnone, fun ph hph hx' => hapart ⟨ph, hph, hx'⟩⟩
    · refine ((hsegs ph hph).writes hplaced (fun k hk => ⟨ph, hph, ?_⟩) hws hphys).placed hplaced'
      rw [Prog.Covers, RegionCover]
      omega

theorem loadIcode_fills
    (hws : ∀ w ∈ ws, ∃ f, Data dirs s t f ∧ pm2va f ≤ w.1 ∧ w.1 < pm2va f + pgSize)
    (hrun : loadIcode s (pm2va d) image binary ws = .ok s') :
    ∃ t', Fills dirs shared d (Loaded image binary) s t s' t' := by
  obtain ⟨_, hbinary, hrest⟩ := of_bind hrun
  obtain ⟨_, hmagic, -⟩ := of_bind hrest
  rcases loadIcode_cases h hd hw hkpd (bne_iff_ne.1 (assert_ok.1 hbinary))
      (beq_iff_eq.1 (assert_ok.1 hmagic)) hws with
    ⟨hpanic, -⟩ | ⟨-, e, hfail, -⟩ | ⟨-, s1, t1, hok, hfills, -⟩
  · exact nomatch hrun.symm.trans hpanic
  · exact nomatch hrun.symm.trans hfail
  · obtain rfl : s' = s1 := Except.ok.inj (hrun.symm.trans hok)
    exact ⟨t1, hfills⟩

end

end JinxOS
