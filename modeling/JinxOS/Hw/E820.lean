import JinxOS.Lib.Walk
import JinxOS.Mem.Pmm

/-!
# The memory map

`init_e820` of `hw/e820.c` copies the memory map that the boot loader has left in memory.  An entry
of the map begins with its size, without the four bytes of the size itself, and the loop goes on by
this to the next entry.  There is room for 64 entries; the loop writes each entry when it comes to
it, and how many there were is looked at when it is over.  All addresses are words: the end of the
map, the size with 4 added and the address of the next entry may wrap around.

The map itself is the walk of `JinxOS.Lib.Walk` without any wrapping, and it always ends, because an
entry has four bytes at least (`exists_mapWalk`).  The code makes the same walk modulo `2 ^ 32`.
What it does behind the last entry depends on where that is modulo `2 ^ 32`: if it is before the end
of the map, the loop goes on there.

* `e820Loop_cases` — the loop ends if its walk has at most 64 entries, and otherwise writes outside
  of the array;
* `initE820_right_iff` — **when the map is copied as it should be.**
-/

namespace JinxOS

/-! ## The code -/

/-- `MB_MEM_MAP`. -/
def mbMemMap : Nat := 0x40

/-- `e820_map`, with the entries that have been written. -/
structure E820Table where
  entries : List E820E
  size : Nat
  deriving DecidableEq, Repr

/-- `sizeof(struct multiboot_mmap_entry)`. -/
def mmapEntrySize : Nat := 24

/-- `e->e820`, for the entry at `e`. -/
def e820At (m : ByteMem) (e : Nat) : E820E where
  addr := m.load (Word.add e 4) + 2 ^ 32 * m.load (Word.add e 8)
  len := m.load (Word.add e 12) + 2 ^ 32 * m.load (Word.add e 16)
  type := m.load (Word.add e 20)

/-- The loop of `init_e820`, for as many entries as there still is room for. -/
def e820Loop (m : ByteMem) (mmapEnd : Nat) :
    Nat → Nat → List E820E → Except Fault (List E820E)
  | room, mmapAddr, entries =>
    if mmapAddr < mmapEnd then
      match room with
      | 0 => .error .outside
      | room + 1 =>
        e820Loop m mmapEnd room (Word.add mmapAddr (Word.add (m.load mmapAddr) 4))
          (entries ++ [e820At m mmapAddr])
    else .ok entries

/-- `init_e820`. -/
def initE820 (m : ByteMem) (mbi : Nat) : Except Fault E820Table := do
  assert "mbi->flags & MB_MEM_MAP" (m.load mbi &&& mbMemMap != 0)
  let mmapAddr := m.load (Word.add mbi 48)
  let mmapEnd := Word.add mmapAddr (m.load (Word.add mbi 44))
  assert "mmap_end - mmap_addr >= sizeof(struct multiboot_mmap_entry)"
    (decide (Word.sub mmapEnd mmapAddr ≥ mmapEntrySize))
  let entries ← e820Loop m mmapEnd e820MaxSize mmapAddr []
  assert "i < E820_MAX_SIZE" (decide (entries.length < e820MaxSize))
  .ok ⟨entries, entries.length⟩

/-! ## The map -/

/-- The next entry of the map. -/
def mapNext (m : ByteMem) (e : Nat) : Nat := e + (m.load e + 4)

/-- The next entry for the code. -/
def codeNext (m : ByteMem) (e : Nat) : Nat := mapNext m e % 2 ^ 32

theorem codeNext_eq (m : ByteMem) (e : Nat) :
    Word.add e (Word.add (m.load e) 4) = codeNext m e := by
  rw [codeNext, mapNext, Word.add, Word.add]
  omega

/-- **The map has an end.** -/
theorem exists_mapWalk (m : ByteMem) (mmapEnd mmapAddr : Nat) :
    ∃ es q, Walks (mapNext m) mmapEnd mmapAddr es q := by
  refine exists_walks fun es q _ _ => ?_
  rw [mapNext]
  omega

/-! ## The loop -/

theorem e820Loop_of_le {m : ByteMem} {mmapEnd mmapAddr : Nat} (hge : mmapEnd ≤ mmapAddr)
    (room : Nat) (entries : List E820E) :
    e820Loop m mmapEnd room mmapAddr entries = .ok entries := by
  cases room <;> exact if_neg (Nat.not_lt.2 hge)

/-- **The loop** copies the entries of its walk if there is room for them.  If there is no walk with
so few entries, it writes outside of the array. -/
theorem e820Loop_cases (m : ByteMem) (mmapEnd : Nat) :
    ∀ (room mmapAddr : Nat) (entries : List E820E),
      (∃ es q, Walks (codeNext m) mmapEnd mmapAddr es q ∧ es.length ≤ room ∧
        e820Loop m mmapEnd room mmapAddr entries = .ok (entries ++ es.map (e820At m))) ∨
      (e820Loop m mmapEnd room mmapAddr entries = .error .outside ∧
        ∀ es q, Walks (codeNext m) mmapEnd mmapAddr es q → room < es.length) := by
  intro room
  induction room with
  | zero =>
    intro mmapAddr entries
    rcases Nat.lt_or_ge mmapAddr mmapEnd with hlt | hge
    · refine .inr ⟨if_pos hlt, fun es q hwalks => ?_⟩
      obtain ⟨es', rfl, -⟩ := hwalks.of_lt hlt
      exact Nat.succ_pos _
    · refine .inl ⟨[], mmapAddr, ⟨.nil, hge⟩, Nat.le_refl 0, ?_⟩
      rw [e820Loop_of_le hge, List.map_nil, List.append_nil]
  | succ room ih =>
    intro mmapAddr entries
    rcases Nat.lt_or_ge mmapAddr mmapEnd with hlt | hge
    · rw [e820Loop, if_pos hlt, codeNext_eq]
      rcases ih (codeNext m mmapAddr) (entries ++ [e820At m mmapAddr]) with
        ⟨es, q, hwalks, hlen, hloop⟩ | ⟨hloop, hlong⟩
      · refine .inl ⟨_, q, hwalks.cons hlt, Nat.succ_le_succ hlen, ?_⟩
        rw [hloop, List.append_assoc, List.singleton_append, List.map_cons]
      · refine .inr ⟨hloop, fun es q hwalks => ?_⟩
        obtain ⟨es', rfl, hwalks'⟩ := hwalks.of_lt hlt
        exact Nat.succ_lt_succ (hlong es' q hwalks')
    · refine .inl ⟨[], mmapAddr, ⟨.nil, hge⟩, Nat.zero_le _, ?_⟩
      rw [e820Loop_of_le hge, List.map_nil, List.append_nil]

theorem initE820_eq {m : ByteMem} {mbi : Nat} (hflags : m.load mbi &&& mbMemMap ≠ 0)
    (hlen : mmapEntrySize ≤ m.load (Word.add mbi 44)) :
    initE820 m mbi =
      (e820Loop m (Word.add (m.load (Word.add mbi 48)) (m.load (Word.add mbi 44))) e820MaxSize
        (m.load (Word.add mbi 48)) [] >>= fun entries =>
          if entries.length < e820MaxSize then .ok ⟨entries, entries.length⟩
          else .error (.assertFailed "i < E820_MAX_SIZE")) := by
  have hlt := m.load_lt (Word.add mbi 44)
  have hsub : Word.sub (Word.add (m.load (Word.add mbi 48)) (m.load (Word.add mbi 44)))
      (m.load (Word.add mbi 48)) = m.load (Word.add mbi 44) := by
    rw [Word.sub, Word.add]
    omega
  have hroom : decide (Word.sub (Word.add (m.load (Word.add mbi 48)) (m.load (Word.add mbi 44)))
      (m.load (Word.add mbi 48)) ≥ mmapEntrySize) = true := by
    rw [hsub]
    exact decide_eq_true hlen
  have hflag : (m.load mbi &&& mbMemMap != 0) = true := bne_iff_ne.2 hflags
  rw [initE820]
  dsimp only
  rw [hflag, hroom]
  cases e820Loop m (Word.add (m.load (Word.add mbi 48)) (m.load (Word.add mbi 44))) e820MaxSize
    (m.load (Word.add mbi 48)) [] with
  | error e => rfl
  | ok entries =>
    by_cases hfew : entries.length < e820MaxSize
    · simp only [assert, ok_bind, if_true, hfew, decide_true]
    · simp only [assert, ok_bind, if_true, hfew, decide_false, if_false,
        Bool.false_eq_true, error_bind]

/-! ## Right or wrong -/

/-- The map is copied as it should be: nothing is written outside of the array, and if the function
returns, then it has copied the entries at `es`. -/
def CopiesMap (m : ByteMem) (mbi : Nat) (es : List Nat) : Prop :=
  initE820 m mbi ≠ .error .outside ∧
    ∀ map, initE820 m mbi = .ok map →
      map.entries = es.map (e820At m) ∧ map.size = es.length

/-- **When the map is copied as it should be.**  Let the entries of the map be at `es`, and the last
one be followed by `q`.  The end of the map has to be a word, and there have to be at most 64
entries.  Moreover, the loop has to end behind the last entry, where it is at `q` modulo `2 ^ 32`;
or else it goes on there until it has 64 entries in all, so that the assertion fails. -/
theorem initE820_right_iff (m : ByteMem) (mbi : Nat) (hflags : m.load mbi &&& mbMemMap ≠ 0)
    (hlen : mmapEntrySize ≤ m.load (Word.add mbi 44)) (es : List Nat) (q : Nat)
    (hes : Walks (mapNext m) (m.load (Word.add mbi 48) + m.load (Word.add mbi 44))
      (m.load (Word.add mbi 48)) es q) :
    CopiesMap m mbi es ↔
      m.load (Word.add mbi 48) + m.load (Word.add mbi 44) < 2 ^ 32 ∧
        ∃ extra q', Walks (codeNext m) (m.load (Word.add mbi 48) + m.load (Word.add mbi 44))
          (q % 2 ^ 32) extra q' ∧
          (es.length + extra.length = e820MaxSize ∨ (es.length < e820MaxSize ∧ extra = [])) := by
  have hinit := initE820_eq hflags hlen
  have haddr := m.load_lt (Word.add mbi 48)
  have hlt := m.load_lt (Word.add mbi 44)
  have hentry : mmapEntrySize = 24 := rfl
  generalize m.load (Word.add mbi 48) = addr at *
  generalize m.load (Word.add mbi 44) = len at *
  obtain ⟨es', rfl, -⟩ := hes.of_lt (show addr < addr + len by omega)
  rcases Nat.lt_or_ge (addr + len) (2 ^ 32) with hend | hend
  · rw [Word.add_eq hend] at hinit
    rw [and_iff_right hend]
    -- the code visits the entries of the map, and then it is at `q` modulo `2 ^ 32`
    have hvisits : Visits (codeNext m) (addr + len) addr (addr :: es') (q % 2 ^ 32) := by
      have hmod := hes.1.mod hend.le
      rwa [Nat.mod_eq_of_lt haddr] at hmod
    rcases e820Loop_cases m (addr + len) e820MaxSize addr [] with
      ⟨ws, r, hwalks, hroom, hloop⟩ | ⟨hloop, hlong⟩
    · obtain ⟨extra, rfl, hextra⟩ := Walks.split hvisits hwalks
      rw [hloop, ok_bind, List.nil_append, List.length_map] at hinit
      rw [List.length_append] at hinit hroom
      constructor
      · rintro ⟨-, hmap⟩
        refine ⟨extra, r, hextra, ?_⟩
        rcases Nat.lt_or_eq_of_le hroom with hfew | hfull
        · rw [if_pos hfew] at hinit
          have hcount := (hmap _ hinit).2
          dsimp only at hcount
          have hnone : extra = [] := List.eq_nil_of_length_eq_zero (by omega)
          exact .inr ⟨by omega, hnone⟩
        · exact .inl hfull
      · rintro ⟨extra', q', hextra', hcount⟩
        obtain ⟨rest, hrest, -⟩ := Walks.split hextra'.1 hextra
        rcases hcount with hfull | ⟨hfew, rfl⟩
        · have hnone : rest = [] := by
            refine List.eq_nil_of_length_eq_zero ?_
            rw [hrest, List.length_append] at hroom
            omega
          rw [hnone, List.append_nil] at hrest
          rw [if_neg (by rw [hrest]; omega)] at hinit
          exact ⟨by rw [hinit]; simp, fun map hmap => by rw [hinit] at hmap; cases hmap⟩
        · have hnone : extra = [] := hextra.of_le hextra'.of_nil
          rw [hnone, List.length_nil, Nat.add_zero, if_pos hfew, List.append_nil] at hinit
          refine ⟨by rw [hinit]; simp, fun map hmap => ?_⟩
          rw [hinit] at hmap
          cases hmap
          exact ⟨rfl, rfl⟩
    · rw [hloop, error_bind] at hinit
      refine iff_of_false (fun h => h.1 hinit) ?_
      rintro ⟨extra, q', hextra, hcount⟩
      have hall := hlong _ q' ⟨hvisits.append hextra.1, hextra.2⟩
      rw [List.length_append] at hall
      rcases hcount with hfull | ⟨hfew, rfl⟩
      · omega
      · rw [List.length_nil] at hall
        omega
  · -- the end of the map has wrapped around, and so the loop does nothing
    refine iff_of_false ?_ fun h => absurd h.1 (Nat.not_lt.2 hend)
    rintro ⟨-, hmap⟩
    have hwrap : Word.add addr len ≤ addr := by
      rw [Word.add]
      omega
    rw [e820Loop_of_le hwrap, ok_bind] at hinit
    exact absurd (hmap _ hinit).2 (by simp)

/-- A boot loader's information at 0 with a map of `n` entries of 24 bytes at 100, for a small `n`.
-/
def bootMem (n : Nat) : ByteMem := fun x =>
  if x = 0 then 0x40
  else if x = 44 then .ofNat (24 * n)
  else if x = 45 then .ofNat (24 * n / 2 ^ 8)
  else if x = 48 then 100
  else if 100 ≤ x ∧ (x - 100) % 24 = 0 then 20
  else 0

theorem initE820_right_iff_three : CopiesMap (bootMem 3) 0 [100, 124, 148] := by
  refine (initE820_right_iff (bootMem 3) 0 (by decide) (by decide) [100, 124, 148] 172
    ⟨.cons (by decide) (.cons (by decide) (.cons (by decide) .nil)), by decide⟩).2
    ⟨by decide, [], 172, ⟨.nil, by decide⟩, .inr ?_⟩
  decide

/-- **A map with 65 entries** is written outside of the array, and so is one with a single entry
that leads to itself, because its size is 4 less than `2 ^ 32`. -/
theorem e820_writes_outside :
    initE820 (bootMem 65) 0 = .error .outside ∧
      initE820 ((bootMem 1).store 100 (2 ^ 32 - 4)) 0 = .error .outside := by
  decide +kernel

end JinxOS
