import JinxOS.Cpu
import JinxOS.Lib.Memory
import JinxOS.Lib.Walk

/-!
# Looking for processors

`init_smp` of `cpu/cpu.c` goes through the subtables of the MADT, the table in which the firmware
lists the processors.  A subtable begins with its type and its length; the loop looks at the fields
that a subtable of this type has, and goes on by the length.  It does not look whether the length is
0, and whether the fields are inside the table.

The addresses that the loop reads are recorded in `Smp.reads`, which the code does not have.  The
loop has a number of iterations as fuel, and that it ends means that some number is enough.

* `madtLoop_iff` — the loop ends exactly if the walk of `JinxOS.Lib.Walk` does, and what it does is
  what it does for one subtable after the other;
* `madtStep_reads` and `madtStep_ids` — what it does for one;
* `initSmp_iff` — **when it all goes well**: each subtable that the loop comes to has a length that
  is not 0 and does not lead out of the address space, and the fields that are read are inside the
  table.  Of a table that ends with the address space the loop reads nothing, as the address of the
  end is 0 then; nothing must be there to be found.
-/

namespace JinxOS

/-! ## The code -/

/-- `NCPU`. -/
def ncpuMax : Nat := 8

/-- What `init_smp` sets. -/
structure Smp where
  ncpu : Nat
  apicids : Nat → UInt8
  lapicAddr : Nat
  ioapicAddr : Nat
  /-- The bytes of memory that the loop has read. -/
  reads : List Nat

/-- A field of `n` bytes at `a` is read. -/
def Smp.read (s : Smp) (a n : Nat) : Smp :=
  { s with reads := (List.range n).map (Word.add a) ++ s.reads }

/-- `apicids[ncpu++] = id`. -/
def Smp.add (s : Smp) (id : UInt8) : Smp :=
  { s with apicids := Function.update s.apicids s.ncpu id, ncpu := (s.ncpu + 1) % 2 ^ 8 }

/-- `p->lapic_flags & BIT(0)`. -/
def lapicEnabled (m : ByteMem) (p : Nat) : Bool := m.load (Word.add p 4) &&& 1 != 0

/-- `p->id`. -/
def lapicId (m : ByteMem) (p : Nat) : UInt8 := m (Word.add p 3)

/-- The `switch` of the loop, for the subtable at `hdr`. -/
def madtEntry (m : ByteMem) (s : Smp) (hdr : Nat) : Smp :=
  let s := s.read hdr 1
  if m hdr = 0 then
    let s := s.read (Word.add hdr 4) 4
    if s.ncpu < ncpuMax ∧ lapicEnabled m hdr then
      (s.read (Word.add hdr 3) 1).add (lapicId m hdr)
    else s
  else if m hdr = 1 then
    let s := s.read (Word.add hdr 8) 4
    if m.load (Word.add hdr 8) = 0 then
      { s.read (Word.add hdr 4) 4 with ioapicAddr := m.load (Word.add hdr 4) }
    else s
  else s

/-- `(void*) hdr + hdr->length`. -/
def hdrNext (m : ByteMem) (hdr : Nat) : Nat := Word.add hdr (m (Word.add hdr 1)).toNat

/-- An iteration of the loop, with the read of the length at its end. -/
def madtStep (m : ByteMem) (s : Smp) (hdr : Nat) : Smp :=
  (madtEntry m s hdr).read (Word.add hdr 1) 1

/-- The loop over the subtables. -/
def madtLoop (m : ByteMem) (stop : Nat) : Nat → Smp → Nat → Except Fault Smp
  | 0, _, _ => .error .diverges
  | fuel + 1, s, hdr =>
    if hdr < stop then madtLoop m stop fuel (madtStep m s hdr) (hdrNext m hdr) else .ok s

/-- `madt->header.length`. -/
def madtLength (m : ByteMem) (madt : Nat) : Nat := m.load (Word.add madt 4)

/-- `init_smp`, with what `acpi_get_table` returns. -/
def initSmp (fuel : Nat) (m : ByteMem) (madt : Option Nat) (s : Smp) : Except Fault Smp := do
  assert "ncpu == 0" (s.ncpu == 0)
  match madt with
  | none => .error (.panic "ACPI: No MADT found")
  | some madt =>
    let s := { s with lapicAddr := m.load (Word.add madt 36) }
    madtLoop m (Word.add madt (madtLength m madt)) fuel s (Word.add madt 44)

/-! ## The loop -/

section
variable {m : ByteMem} {stop : Nat}

/-- **The loop ends exactly if the walk does**, and then it has done its step for each subtable. -/
theorem madtLoop_iff {s s' : Smp} {hdr : Nat} : (∃ fuel, madtLoop m stop fuel s hdr = .ok s') ↔
    ∃ ps q, Walks (hdrNext m) stop hdr ps q ∧ s' = ps.foldl (madtStep m) s := by
  constructor
  · rintro ⟨fuel, h⟩
    induction fuel generalizing s hdr with
    | zero => cases h
    | succ fuel ih =>
      rw [madtLoop] at h
      split at h
      · rename_i hlt
        obtain ⟨ps, q, hwalks, rfl⟩ := ih h
        exact ⟨_, q, hwalks.cons hlt, rfl⟩
      · rename_i hge
        cases h
        exact ⟨[], hdr, ⟨.nil, Nat.not_lt.1 hge⟩, rfl⟩
  · rintro ⟨ps, q, ⟨hvisits, hstop⟩, rfl⟩
    refine ⟨ps.length + 1, ?_⟩
    induction hvisits generalizing s with
    | nil => exact if_neg (Nat.not_lt.2 hstop)
    | cons hlt _ ih =>
      rw [List.length_cons, madtLoop, if_pos hlt]
      exact ih hstop

end

/-! ## One subtable -/

/-- The size of what is read of a subtable: a local APIC, an I/O APIC or only the header. -/
def fieldsSize (type : UInt8) : Nat := if type = 0 then 8 else if type = 1 then 12 else 2

/-- The fields that are read for the subtable at `p` are before `stop`. -/
def FieldsInside (m : ByteMem) (stop p : Nat) : Prop := p + fieldsSize (m p) ≤ stop

/-- All that has been read is in the table. -/
def ReadsInside (madt stop : Nat) (s : Smp) : Prop := ∀ x ∈ s.reads, madt ≤ x ∧ x < stop

section
variable {m : ByteMem} {madt stop p : Nat} {s : Smp}

/-- There is a subtable at `p`.  The table does not reach from the first 256 bytes of the address
space to the last 256. -/
structure InTable (madt stop p : Nat) : Prop where
  le : madt ≤ p
  lt : p < stop
  space : stop < 2 ^ 32
  apart : 256 ≤ madt ∨ stop + 256 ≤ 2 ^ 32

theorem readsInside_read {k n : Nat} (hp : InTable madt stop p) (hn : 0 < n) (hk : k + n ≤ 256) :
    ReadsInside madt stop (s.read (Word.add p k) n) ↔
      p + k + n ≤ stop ∧ ReadsInside madt stop s := by
  obtain ⟨hle, hlt, hspace, hapart⟩ := hp
  have hbyte : ∀ i, Word.add (Word.add p k) i = (p + k + i) % 2 ^ 32 := Nat.mod_add_mod _ _
  rw [ReadsInside, Smp.read]
  simp only [List.mem_append, List.mem_map, List.mem_range]
  constructor
  · intro h
    have hlast := h _ (.inl ⟨n - 1, by omega, hbyte _⟩)
    exact ⟨by omega, fun x hx => h x (.inr hx)⟩
  · rintro ⟨hend, hrest⟩ x (⟨i, hi, rfl⟩ | hx)
    · rw [hbyte i, Nat.mod_eq_of_lt (by omega)]
      omega
    · exact hrest x hx

theorem readsInside_type (hp : InTable madt stop p) :
    ReadsInside madt stop (s.read p 1) ↔ p + 1 ≤ stop ∧ ReadsInside madt stop s := by
  have h : ReadsInside madt stop (s.read (Word.add p 0) 1) ↔
      p + 0 + 1 ≤ stop ∧ ReadsInside madt stop s := readsInside_read hp (by decide) (by decide)
  rwa [Word.add_eq (Nat.lt_trans hp.lt hp.space), Nat.add_zero] at h

/-- **What is read for one subtable** is inside the table exactly if the fields are. -/
theorem madtStep_reads (hp : InTable madt stop p) :
    ReadsInside madt stop (madtStep m s p) ↔
      FieldsInside m stop p ∧ ReadsInside madt stop s := by
  have hadd : ∀ (s : Smp) (id : UInt8),
      ReadsInside madt stop (s.add id) ↔ ReadsInside madt stop s := fun _ _ => Iff.rfl
  have hio : ∀ (s : Smp) (a : Nat),
      ReadsInside madt stop { s with ioapicAddr := a } ↔ ReadsInside madt stop s :=
    fun _ _ => Iff.rfl
  rw [madtStep, readsInside_read hp (by decide) (by decide), FieldsInside, fieldsSize, madtEntry]
  dsimp only
  split_ifs with hlapic henabled hioapic hbase
  -- the last field that is read decides, the others are in front of it
  all_goals
    simp (disch := decide) only [hadd, hio, readsInside_read hp, readsInside_type hp, ← and_assoc]
    exact and_congr_left fun _ => by omega

theorem mem_madtStep {x : Nat} (hx : x = Word.add p 0 ∨ x ∈ s.reads) :
    x ∈ (madtStep m s p).reads := by
  rw [madtStep, madtEntry]
  dsimp only
  split_ifs <;> simp only [Smp.read, Smp.add, List.mem_append] <;>
    rcases hx with rfl | hx <;> simp [*]

/-- The processors that have been found. -/
def Smp.ids (s : Smp) : List UInt8 := (List.range s.ncpu).map s.apicids

/-- The subtable at `p` is a local APIC that is enabled. -/
def isProcessor (m : ByteMem) (p : Nat) : Bool := m p == 0 && lapicEnabled m p

theorem Smp.length_ids (s : Smp) : s.ids.length = s.ncpu := by
  rw [ids, List.length_map, List.length_range]

theorem Smp.ids_add (s : Smp) (id : UInt8) (hlt : s.ncpu < ncpuMax) :
    (s.add id).ids = s.ids ++ [id] := by
  have hmax : ncpuMax = 8 := rfl
  have hnext : (s.ncpu + 1) % 2 ^ 8 = s.ncpu + 1 := Nat.mod_eq_of_lt (by omega)
  rw [ids, ids, add]
  dsimp only
  rw [hnext, List.range_succ, List.map_append, List.map_singleton, Function.update_self]
  congr 1
  refine List.map_congr_left fun i hi => Function.update_of_ne ?_ _ _
  exact (List.mem_range.1 hi).ne

/-- **The processors found after one subtable**: it is added if it is one and there is room. -/
theorem madtStep_ids (hle : s.ncpu ≤ ncpuMax) :
    (madtStep m s p).ncpu ≤ ncpuMax ∧
      (madtStep m s p).ids =
        (s.ids ++ ([p].filter (isProcessor m)).map (lapicId m)).take ncpuMax := by
  have hlen := s.length_ids
  have hall : s.ids.take ncpuMax = s.ids := List.take_of_length_le (by omega)
  have hsame : ∀ t : Smp, t.ncpu = s.ncpu → t.apicids = s.apicids →
      ¬ isProcessor m p = true ∨ ncpuMax ≤ s.ncpu →
      t.ncpu ≤ ncpuMax ∧
        t.ids = (s.ids ++ ([p].filter (isProcessor m)).map (lapicId m)).take ncpuMax := by
    intro t hncpu hids hnone
    have hids' : t.ids = s.ids := by rw [Smp.ids, Smp.ids, hncpu, hids]
    refine ⟨by omega, ?_⟩
    rcases hnone with hno | hfull
    · rw [List.filter_cons_of_neg hno, List.filter_nil, List.map_nil, List.append_nil, hall, hids']
    · rw [List.take_append_of_le_length (by omega), hall, hids']
  rw [madtStep, madtEntry]
  dsimp only
  split_ifs with hlapic hadd hioapic hbase
  · have hyes : isProcessor m p = true := by
      rw [isProcessor, hlapic, hadd.2]
      rfl
    have hlt : s.ncpu < ncpuMax := hadd.1
    have hnew : (s.ids ++ [lapicId m p]).length ≤ ncpuMax := by
      rw [List.length_append, List.length_singleton]
      omega
    rw [List.filter_cons_of_pos hyes, List.filter_nil, List.map_singleton,
      List.take_of_length_le hnew, ← s.ids_add (lapicId m p) hlt]
    refine ⟨?_, rfl⟩
    show (s.ncpu + 1) % 2 ^ 8 ≤ ncpuMax
    omega
  · refine hsame _ rfl rfl ?_
    by_cases hlt : s.ncpu < ncpuMax
    · rw [isProcessor, Bool.and_eq_true]
      exact .inl fun h => hadd ⟨hlt, h.2⟩
    · exact .inr (Nat.not_lt.1 hlt)
  all_goals
    refine hsame _ rfl rfl (.inl ?_)
    rw [isProcessor, Bool.and_eq_true, beq_iff_eq]
    exact fun h => hlapic h.1

end

/-! ## All subtables -/

section
variable {m : ByteMem} {madt stop : Nat}

theorem foldl_reads : ∀ {ps : List Nat} {s : Smp}, (∀ p ∈ ps, InTable madt stop p) →
    (ReadsInside madt stop (ps.foldl (madtStep m) s) ↔
      (∀ p ∈ ps, FieldsInside m stop p) ∧ ReadsInside madt stop s)
  | [], s, _ => by simp
  | p :: ps, s, hps => by
    rw [List.foldl_cons, foldl_reads fun x hx => hps x (List.mem_cons_of_mem p hx),
      madtStep_reads (hps p List.mem_cons_self), List.forall_mem_cons, and_left_comm, and_assoc]

theorem mem_foldl_reads : ∀ {ps : List Nat} {s : Smp} {x : Nat},
    (∃ p ∈ ps, x = Word.add p 0) ∨ x ∈ s.reads → x ∈ (ps.foldl (madtStep m) s).reads
  | [], s, x, h => by simpa using h
  | p :: ps, s, x, h => by
    rw [List.foldl_cons]
    refine mem_foldl_reads ?_
    rcases h with ⟨y, hy, rfl⟩ | hx
    · rcases List.mem_cons.1 hy with rfl | hy
      · exact .inr (mem_madtStep (.inl rfl))
      · exact .inl ⟨y, hy, rfl⟩
    · exact .inr (mem_madtStep (.inr hx))

theorem take_take_append {α : Type} (n : Nat) (l l' : List α) :
    (l.take n ++ l').take n = (l ++ l').take n := by
  rcases Nat.le_total n l.length with hle | hge
  · rw [List.take_append_of_le_length (by rw [List.length_take]; omega),
      List.take_append_of_le_length hle, List.take_take, Nat.min_self]
  · rw [List.take_of_length_le hge]

theorem foldl_ids : ∀ {ps : List Nat} {s : Smp}, s.ncpu ≤ ncpuMax →
    (ps.foldl (madtStep m) s).ids =
      (s.ids ++ (ps.filter (isProcessor m)).map (lapicId m)).take ncpuMax
  | [], s, hs => by
    rw [List.foldl_nil, List.filter_nil, List.map_nil, List.append_nil,
      List.take_of_length_le (by rw [s.length_ids]; exact hs)]
  | p :: ps, s, hs => by
    obtain ⟨hle, hids⟩ := madtStep_ids hs
    rw [List.foldl_cons, foldl_ids hle, hids, take_take_append, List.append_assoc,
      ← List.map_append, ← List.filter_append, List.singleton_append]

end

/-! ## Right or wrong -/

/-- The next subtable of the table. -/
def subtableNext (m : ByteMem) (hdr : Nat) : Nat := hdr + (m (Word.add hdr 1)).toNat

/-- `init_smp` does what it should: it returns, the loop has read inside the table only, and what it
has found are the first 8 of the processors in the table. -/
def FindsProcessors (m : ByteMem) (madt : Nat) (s : Smp) : Prop :=
  ∃ fuel s' ps q, initSmp fuel m (some madt) s = .ok s' ∧
    ReadsInside madt (madt + madtLength m madt) s' ∧
    Walks (subtableNext m) (madt + madtLength m madt) (madt + 44) ps q ∧
    s'.ids = ((ps.filter (isProcessor m)).map (lapicId m)).take ncpuMax

/-- The subtable at `p` is well formed: its length is not 0, its fields are inside the table, and it
does not lead out of the address space.  If the table ends with the address space, the loop does not
look at it, and it is not to be found. -/
def SubtableFormed (m : ByteMem) (stop p : Nat) : Prop :=
  m (Word.add p 1) ≠ 0 ∧
    if stop < 2 ^ 32 then FieldsInside m stop p ∧ subtableNext m p < 2 ^ 32
    else isProcessor m p = false

/-- The table is well formed: the subtables to which the lengths lead are, and the head of the table
does not wrap around if the table does not. -/
def SubtablesFormed (m : ByteMem) (madt : Nat) : Prop :=
  (madt + madtLength m madt < 2 ^ 32 → madt + 44 < 2 ^ 32) ∧
    ∀ ps p, Visits (subtableNext m) (madt + madtLength m madt) (madt + 44) ps p →
      p < madt + madtLength m madt → SubtableFormed m (madt + madtLength m madt) p

theorem le_subtableNext (m : ByteMem) (p : Nat) : p ≤ subtableNext m p := Nat.le_add_right _ _

theorem subtableNext_lt (m : ByteMem) (p : Nat) : subtableNext m p < p + 256 :=
  Nat.add_lt_add_left (m (Word.add p 1)).toNat_lt p

/-- What the loop has found when it returns, and the subtables that it has looked at. -/
theorem initSmp_ok_iff (m : ByteMem) (madt : Nat) {s s' : Smp} (hncpu : s.ncpu = 0) :
    (∃ fuel, initSmp fuel m (some madt) s = .ok s') ↔ ∃ ws r,
      Walks (hdrNext m) (Word.add madt (madtLength m madt)) (Word.add madt 44) ws r ∧
        s' = ws.foldl (madtStep m) { s with lapicAddr := m.load (Word.add madt 36) } := by
  have hzero : (s.ncpu == 0) = true := beq_iff_eq.2 hncpu
  rw [← madtLoop_iff]
  simp only [initSmp, hzero, assert_true, ok_bind]

/-- The lengths of well-formed subtables lead to the end of the table. -/
theorem SubtablesFormed.walks {m : ByteMem} {madt : Nat} (h : SubtablesFormed m madt) :
    ∃ ps q, Walks (subtableNext m) (madt + madtLength m madt) (madt + 44) ps q := by
  refine exists_walks fun qs p hv hlt => ?_
  have hne := (h.2 qs p hv hlt).1
  have hpos : (m (Word.add p 1)).toNat ≠ 0 := fun hzero => hne (UInt8.toNat_inj.1 hzero)
  rw [subtableNext]
  omega

/-- A table is well formed if the lengths lead to its end over subtables that are. -/
theorem SubtablesFormed.of_walks {m : ByteMem} {madt q : Nat} {ps : List Nat}
    (hhead : madt + 44 < 2 ^ 32)
    (h : Walks (subtableNext m) (madt + madtLength m madt) (madt + 44) ps q)
    (hps : ∀ p ∈ ps, SubtableFormed m (madt + madtLength m madt) p) : SubtablesFormed m madt := by
  refine ⟨fun _ => hhead, fun qs p hv hlt => hps p ?_⟩
  obtain ⟨rest, rfl, hrest⟩ := Walks.split hv h
  obtain ⟨rest', rfl, -⟩ := hrest.of_lt hlt
  simp

section
variable {m : ByteMem} {madt stop q : Nat} {ps : List Nat}

theorem visits_hdrNext (hstop : stop < 2 ^ 32) (hstart : madt + 44 < 2 ^ 32)
    (hv : Visits (subtableNext m) stop (madt + 44) ps q) :
    Visits (hdrNext m) stop (madt + 44) ps (q % 2 ^ 32) := by
  have h := hv.mod hstop.le
  rwa [Nat.mod_eq_of_lt hstart] at h

/-- Where the loop reads inside the table only, the cursor does not wrap around. -/
theorem lt_of_readsInside {ws : List Nat} {r : Nat} {s : Smp} (hstop : stop < 2 ^ 32)
    (hstart : madt + 44 < 2 ^ 32) (hapart : 256 ≤ madt ∨ stop + 256 ≤ 2 ^ 32)
    (hlt : madt + 44 < stop) (hv : Visits (subtableNext m) stop (madt + 44) ps q)
    (hws : Walks (hdrNext m) stop (madt + 44) ws r)
    (hinside : ReadsInside madt stop (ws.foldl (madtStep m) s)) : q < 2 ^ 32 := by
  have hq : q < stop + 256 := hv.end_inv (P := (· < stop + 256)) (by omega) fun _ x _ hx => by
    have := subtableNext_lt m x
    omega
  by_contra hwrap
  have hlow : q % 2 ^ 32 < 256 := by omega
  obtain ⟨rest, rfl, hrest⟩ := Walks.split (visits_hdrNext hstop hstart hv) hws
  obtain ⟨rest', rfl, -⟩ := hrest.of_lt (by omega)
  have hread := hinside (q % 2 ^ 32)
    (mem_foldl_reads (.inl ⟨q % 2 ^ 32, by simp, (Nat.mod_mod _ _).symm⟩))
  omega

/-- And then it looks at all the subtables, so that their fields are inside. -/
theorem fieldsInside_of_readsInside {ws : List Nat} {r : Nat} {s : Smp} (hstop : stop < 2 ^ 32)
    (hapart : 256 ≤ madt ∨ stop + 256 ≤ 2 ^ 32) (hlt : madt + 44 < stop)
    (hwalks : Walks (subtableNext m) stop (madt + 44) ps q)
    (hws : Walks (hdrNext m) stop (madt + 44) ws r)
    (hinside : ReadsInside madt stop (ws.foldl (madtStep m) s)) :
    q < 2 ^ 32 ∧ ∀ p ∈ ps, FieldsInside m stop p := by
  have hstart : madt + 44 < 2 ^ 32 := hlt.trans hstop
  have hq : q < 2 ^ 32 := lt_of_readsInside hstop hstart hapart hlt hwalks.1 hws hinside
  have hcode := visits_hdrNext hstop hstart hwalks.1
  rw [Nat.mod_eq_of_lt hq] at hcode
  obtain ⟨more, rfl, hmore⟩ := Walks.split hcode hws
  obtain rfl := hmore.of_le hwalks.2
  rw [List.append_nil] at hinside
  refine ⟨hq, ((foldl_reads fun p hp => ?_).1 hinside).1⟩
  have hp' := (hwalks.1.le (le_subtableNext m)).2 p hp
  exact ⟨by omega, hp'.2, hstop, hapart⟩

end

section
variable {m : ByteMem} {madt : Nat} {s : Smp}

theorem foldl_ids_init (hncpu : s.ncpu = 0) (a : Nat) (ws : List Nat) :
    (ws.foldl (madtStep m) { s with lapicAddr := a }).ids =
      ((ws.filter (isProcessor m)).map (lapicId m)).take ncpuMax := by
  have hnone : ({ s with lapicAddr := a } : Smp).ids = [] := by
    rw [Smp.ids, hncpu]
    rfl
  rw [foldl_ids (by rw [hncpu]; exact Nat.zero_le _), hnone, List.nil_append]

variable (hncpu : s.ncpu = 0) (hend : madt + madtLength m madt ≤ 2 ^ 32)
  (hapart : 256 ≤ madt ∨ madt + madtLength m madt + 256 ≤ 2 ^ 32)
include hncpu hend hapart

theorem FindsProcessors.formed (h : FindsProcessors m madt s) : SubtablesFormed m madt := by
  obtain ⟨fuel, s', ps, q, hok, hinside, hwalks, hfound⟩ := h
  obtain ⟨ws, r, hws, rfl⟩ := (initSmp_ok_iff m madt hncpu).1 ⟨fuel, hok⟩
  have hfirst : Word.add madt 44 < Word.add madt (madtLength m madt) → madt ≤ Word.add madt 44 := by
    intro hlt
    obtain ⟨ws', rfl, -⟩ := hws.of_lt hlt
    exact (hinside _
      (mem_foldl_reads (.inl ⟨_, List.mem_cons_self, (Nat.mod_mod _ _).symm⟩))).1
  rw [Word.add, Word.add] at hfirst hws
  rw [foldl_ids_init hncpu] at hfound
  have hmadt : madt ≤ madt + madtLength m madt := Nat.le_add_right _ _
  rw [SubtablesFormed]
  generalize madt + madtLength m madt = stop at *
  refine ⟨by omega, fun qs p hv hlt => ⟨?_, ?_⟩⟩
  all_goals
    have hle := (hv.le (le_subtableNext m)).1
    obtain ⟨rest, rfl, hrest⟩ := Walks.split hv hwalks
    obtain ⟨rest', rfl, hrest'⟩ := hrest.of_lt hlt
  · intro hzero
    refine hrest.next_ne hlt ?_
    rw [subtableNext, hzero]
    rfl
  · split_ifs with hstop
    · rw [Nat.mod_eq_of_lt hstop, Nat.mod_eq_of_lt (show madt + 44 < 2 ^ 32 by omega)] at hws
      obtain ⟨hq, hfields⟩ :=
        fieldsInside_of_readsInside hstop hapart (by omega) hwalks hws hinside
      exact ⟨hfields p (by simp), Nat.lt_of_le_of_lt (hrest'.1.le (le_subtableNext m)).1 hq⟩
    · -- the address of the end is 0, and nothing has been looked at
      have hzero : stop % 2 ^ 32 = 0 := by omega
      rw [hzero] at hws
      obtain rfl := hws.of_le (Nat.zero_le _)
      simp [ncpuMax] at hfound
      exact hfound.2.1

theorem SubtablesFormed.finds (hreads : s.reads = []) (h : SubtablesFormed m madt) :
    FindsProcessors m madt s := by
  obtain ⟨ps, q, hwalks⟩ := h.walks
  obtain ⟨hhead, hformed⟩ := h
  have hrun := fun ws r hws => (initSmp_ok_iff m madt hncpu).2 ⟨ws, r, hws, rfl⟩
  have hids := foldl_ids_init (m := m) hncpu (m.load (Word.add madt 36))
  have hwrap : Word.add madt (madtLength m madt) = (madt + madtLength m madt) % 2 ^ 32 := rfl
  rw [FindsProcessors]
  rw [hwrap] at hrun
  generalize madt + madtLength m madt = stop at *
  have hmem : ∀ p ∈ ps, p < stop ∧ madt ≤ p ∧ SubtableFormed m stop p := by
    intro p hp
    have hle := (hwalks.1.le (le_subtableNext m)).2 p hp
    obtain ⟨before, after, rfl⟩ := List.append_of_mem hp
    obtain ⟨hv, hlt⟩ := Visits.to_mem hwalks.1
    exact ⟨hlt, by omega, hformed before p hv hlt⟩
  rcases Nat.lt_or_ge stop (2 ^ 32) with hstop | hstop
  · have hstart := hhead hstop
    have hq : q < 2 ^ 32 := hwalks.1.end_inv (P := (· < 2 ^ 32)) hstart fun qs p hv hlt =>
      ((if_pos hstop).mp (hformed qs p hv hlt).2).2
    have hcode := visits_hdrNext hstop hstart hwalks.1
    rw [Nat.mod_eq_of_lt hq] at hcode
    rw [Nat.mod_eq_of_lt hstop, Word.add_eq hstart] at hrun
    obtain ⟨fuel, hok⟩ := hrun ps q ⟨hcode, hwalks.2⟩
    refine ⟨fuel, _, ps, q, hok, ?_, hwalks, hids ps⟩
    refine (foldl_reads fun p hp => ?_).2 ⟨fun p hp => ?_, ?_⟩
    · exact ⟨(hmem p hp).2.1, (hmem p hp).1, hstop, hapart⟩
    · exact ((if_pos hstop).mp (hmem p hp).2.2.2).1
    · intro x hx
      rw [hreads] at hx
      cases hx
  · have hzero : stop % 2 ^ 32 = 0 := by omega
    rw [hzero] at hrun
    obtain ⟨fuel, hok⟩ := hrun [] _ ⟨.nil, Nat.zero_le _⟩
    refine ⟨fuel, _, ps, q, hok, ?_, hwalks, ?_⟩
    · intro x hx
      rw [List.foldl_nil, hreads] at hx
      cases hx
    · have hnone : ps.filter (isProcessor m) = [] := List.filter_eq_nil_iff.2 fun p hp => by
        rw [(if_neg (Nat.not_lt.2 hstop)).mp (hmem p hp).2.2.2]
        exact Bool.false_ne_true
      rw [hids, hnone]
      rfl

end

/-- **When the processors are found.**  The table is in the address space and apart from `ncpu`,
which is at `var` and which the loop changes.  Then the loop ends, reads inside the table and finds
the first 8 processors exactly if the subtables to which the lengths lead are well formed. -/
theorem initSmp_iff (m : ByteMem) (madt var : Nat) (s : Smp) (hncpu : s.ncpu = 0)
    (hreads : s.reads = []) (hend : madt + madtLength m madt ≤ 2 ^ 32)
    (hvar : 256 ≤ var ∧ var + 256 ≤ 2 ^ 32)
    (hapart : var < madt ∨ madt + madtLength m madt ≤ var) :
    FindsProcessors m madt s ↔ SubtablesFormed m madt := by
  have hapart' : 256 ≤ madt ∨ madt + madtLength m madt + 256 ≤ 2 ^ 32 := by omega
  exact ⟨FindsProcessors.formed hncpu hend hapart', SubtablesFormed.finds hncpu hend hapart' hreads⟩

/-- A MADT at 1000 with these subtables. -/
def madtMem (subtables : List UInt8) : ByteMem := fun x =>
  if x = 1004 then (44 + subtables.length).toUInt8
  else if x < 1044 then 0
  else subtables.getD (x - 1044) 0

/-- Nothing has been found yet. -/
def noCpus : Smp := ⟨0, fun _ => 0, 0, 0, []⟩

/-- A local APIC with the id 3, an I/O APIC, and a local APIC with the id 5. -/
def threeSubtables : List UInt8 :=
  [0, 8, 0, 3, 1, 0, 0, 0] ++ [1, 12, 0, 0, 0, 0, 192, 254, 0, 0, 0, 0] ++ [0, 8, 0, 5, 1, 0, 0, 0]

theorem initSmp_iff_three : FindsProcessors (madtMem threeSubtables) 1000 noCpus := by
  refine (initSmp_iff (madtMem threeSubtables) 1000 0xC0000000 noCpus rfl rfl (by decide)
    (by decide) (by decide)).2 ?_
  have hwalks : Walks (subtableNext (madtMem threeSubtables)) 1072 1044 [1044, 1052, 1064] 1072 :=
    ⟨.cons (by decide) (.cons (by decide) (.cons (by decide) .nil)), by decide⟩
  refine SubtablesFormed.of_walks (by decide) hwalks ?_
  simp only [SubtableFormed, FieldsInside]
  decide

/-- A local APIC that says that its length is 0. -/
def noLength : List UInt8 := [0, 0, 0, 3, 1, 0, 0, 0]

theorem madtLoop_length_zero (fuel : Nat) (s : Smp) :
    madtLoop (madtMem noLength) 1052 fuel s 1044 = .error .diverges := by
  induction fuel generalizing s with
  | zero => rfl
  | succ fuel ih =>
    rw [madtLoop, if_pos (by decide), show hdrNext (madtMem noLength) 1044 = 1044 by decide]
    exact ih _

/-- **A subtable of length 0**: the loop does not end. -/
theorem madt_length_zero :
    (∀ fuel, initSmp fuel (madtMem noLength) (some 1000) noCpus = .error .diverges) ∧
      ¬ FindsProcessors (madtMem noLength) 1000 noCpus := by
  have hinit : ∀ fuel, initSmp fuel (madtMem noLength) (some 1000) noCpus = .error .diverges :=
    fun fuel => madtLoop_length_zero fuel _
  refine ⟨hinit, ?_⟩
  rintro ⟨fuel, s', ps, q, hok, -⟩
  rw [hinit fuel] at hok
  cases hok

end JinxOS
