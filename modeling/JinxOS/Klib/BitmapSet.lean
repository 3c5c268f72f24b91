import JinxOS.Klib.Bitmap
import JinxOS.Lib.Refinement
import Mathlib.Data.Finset.Basic

/-!
# A bitmap is a set of numbers

Any sequence of `bitmap_alloc`, `bitmap_mark`, `bitmap_unmark` and `bitmap_isset` on a bitmap from
`bitmap_create`.  It stands for a set of numbers below `bits`: `bitmap_alloc` inserts the least
number that is not in it, and the others do what their names say.

Two bytes can differ and stand for the same set only in the padding, which `Bitmap.Wf` fixes.  It is
what the code relies on: `bitmap_alloc` looks at whole bytes, and its last byte would otherwise
offer numbers that the bitmap does not have.  So `BitmapRep` is that the bitmap is well formed and
that its bits are those of the set, and each call keeps it.
-/

namespace JinxOS

open Refinement

/-! ## Calls -/

/-- A call. -/
inductive BitmapOp
  /-- `bitmap_alloc(b, &idx)`. -/
  | alloc
  /-- `bitmap_mark(b, idx)`. -/
  | mark (idx : Nat)
  /-- `bitmap_unmark(b, idx)`. -/
  | unmark (idx : Nat)
  /-- `bitmap_isset(b, idx)`. -/
  | isset (idx : Nat)

/-- What a call returns. -/
inductive BitmapRes
  /-- Nothing. -/
  | void
  /-- 0, with `idx` stored. -/
  | index (idx : Nat)
  /-- `ENOSPC`. -/
  | enospc
  /-- A `bool`. -/
  | bool (set : Bool)
  deriving DecidableEq

/-- What `bitmap_alloc` returns. -/
def allocRes : Option Nat → BitmapRes
  | some idx => .index idx
  | none => .enospc

/-- A call: what it returns, and the bitmap after it. -/
def bitmapCall (b : Bitmap) : BitmapOp → Except Fault (BitmapRes × Bitmap)
  | .alloc => do
    let (idx, b) ← bitmapAlloc b
    .ok (allocRes idx, b)
  | .mark idx => do
    let b ← bitmapMark b idx
    .ok (.void, b)
  | .unmark idx => do
    let b ← bitmapUnmark b idx
    .ok (.void, b)
  | .isset idx => do
    let set ← bitmapIsset b idx
    .ok (.bool set, b)

/-! ## Sets -/

/-- The least number below `bits` that is not in the set. -/
def leastClear (bits : Nat) (m : Finset Nat) : Option Nat := (List.range bits).find? (· ∉ m)

/-- The numbers are below `bits`, only a number that is not in the set is marked, and only one that
is in it is unmarked. -/
def BitmapOp.Pre (bits : Nat) (m : Finset Nat) : BitmapOp → Prop
  | .alloc => True
  | .mark idx => idx < bits ∧ idx ∉ m
  | .unmark idx => idx < bits ∧ idx ∈ m
  | .isset idx => idx < bits

instance BitmapOp.decidablePre (bits : Nat) (m : Finset Nat) :
    (op : BitmapOp) → Decidable (op.Pre bits m)
  | .alloc => inferInstanceAs (Decidable True)
  | .mark idx => inferInstanceAs (Decidable (idx < bits ∧ idx ∉ m))
  | .unmark idx => inferInstanceAs (Decidable (idx < bits ∧ idx ∈ m))
  | .isset idx => inferInstanceAs (Decidable (idx < bits))

/-- What a call does to a set, and what it returns. -/
def BitmapOp.next (bits : Nat) (m : Finset Nat) : BitmapOp → BitmapRes × Finset Nat
  | .alloc =>
    match leastClear bits m with
    | some idx => (.index idx, insert idx m)
    | none => (.enospc, m)
  | .mark idx => (.void, insert idx m)
  | .unmark idx => (.void, m.erase idx)
  | .isset idx => (.bool (decide (idx ∈ m)), m)

/-- A bitmap represents a set. -/
structure BitmapRep (bits : Nat) (b : Bitmap) (m : Finset Nat) : Prop where
  wf : b.Wf
  bits_eq : b.bits = bits
  has : ∀ i, i < bits → (b.has i = true ↔ i ∈ m)

theorem leastClear_eq_none {bits : Nat} {m : Finset Nat} :
    leastClear bits m = none ↔ ∀ i, i < bits → i ∈ m := by
  simp [leastClear]

theorem leastClear_eq_some {bits i : Nat} {m : Finset Nat} :
    leastClear bits m = some i ↔ i < bits ∧ i ∉ m ∧ ∀ j, j < i → j ∈ m := by
  rw [leastClear, List.find?_range_eq_some]
  simp [and_left_comm]

section
variable {bits : Nat} {b : Bitmap} {m : Finset Nat}

section
variable (h : BitmapRep bits b m)
include h

section
variable {idx : Nat} (hidx : idx < bits)
include hidx

theorem BitmapRep.mark : BitmapRep bits (b.mark idx) (insert idx m) := by
  have hidx' : idx < b.bits := h.bits_eq ▸ hidx
  refine ⟨h.wf.mark hidx', h.bits_eq, fun i hi => ?_⟩
  rw [Bitmap.has_mark (h.wf.lt hidx'), Bool.or_eq_true, h.has i hi, decide_eq_true_iff,
    Finset.mem_insert, eq_comm, or_comm]

/-- A bit is cleared in a bitmap, and the number is taken out of the set. -/
theorem BitmapRep.unmark : BitmapRep bits (b.unmark idx) (m.erase idx) := by
  have hidx' : idx < b.bits := h.bits_eq ▸ hidx
  refine ⟨h.wf.unmark hidx', h.bits_eq, fun i hi => ?_⟩
  rw [Bitmap.has_unmark (h.wf.lt hidx'), Bool.and_eq_true, h.has i hi, Bool.not_eq_true',
    decide_eq_false_iff_not, Finset.mem_erase, eq_comm, and_comm]

theorem BitmapRep.has_eq : b.has idx = decide (idx ∈ m) :=
  Bool.eq_iff_iff.2 ((h.has idx hidx).trans decide_eq_true_iff.symm)

theorem BitmapRep.isset : bitmapIsset b idx = .ok (decide (idx ∈ m)) := by
  rw [bitmapIsset_ok (h.bits_eq ▸ hidx), h.has_eq hidx]

end

/-- `bitmap_alloc` finds the least number that is not in the set, or there is none. -/
theorem BitmapRep.alloc : ∃ b', bitmapCall b .alloc = .ok ((BitmapOp.alloc.next bits m).1, b') ∧
      BitmapRep bits b' (BitmapOp.alloc.next bits m).2 := by
  have hmem : ∀ i, i < bits → b.has i = true → i ∈ m := fun i hi => (h.has i hi).1
  rw [bitmapCall, BitmapOp.next]
  rcases bitmapAlloc_cases h.wf with ⟨hrun, hfull⟩ | ⟨k, hrun, hk, hclear, hleast⟩
  · have hnone : leastClear bits m = none :=
      leastClear_eq_none.2 fun i hi => hmem i hi (hfull i (h.bits_eq.symm ▸ hi))
    rw [hrun, hnone, ok_bind]
    exact ⟨b, rfl, h⟩
  · have hk' : k < bits := h.bits_eq ▸ hk
    have hsome : leastClear bits m = some k := by
      refine leastClear_eq_some.2 ⟨hk', fun hin => ?_, fun j hj => hmem j (by omega) (hleast j hj)⟩
      rw [(h.has k hk').2 hin] at hclear
      exact nomatch hclear
    rw [hrun, hsome, ok_bind]
    exact ⟨b.mark k, rfl, h.mark hk'⟩

/-- **A call does to the bitmap what it does to the set**, and returns what it should. -/
theorem BitmapRep.call (op : BitmapOp) (hpre : op.Pre bits m) :
    ∃ b', bitmapCall b op = .ok ((op.next bits m).1, b') ∧
      BitmapRep bits b' (op.next bits m).2 := by
  cases op with
  | alloc => exact h.alloc
  | mark idx =>
    have hclear : b.has idx = false := (h.has_eq hpre.1).trans (decide_eq_false hpre.2)
    refine ⟨b.mark idx, ?_, h.mark hpre.1⟩
    rw [bitmapCall, bitmapMark_ok (h.bits_eq ▸ hpre.1) hclear, ok_bind]
    rfl
  | unmark idx =>
    refine ⟨b.unmark idx, ?_, h.unmark hpre.1⟩
    rw [bitmapCall, bitmapUnmark_ok (h.bits_eq ▸ hpre.1) ((h.has idx hpre.1).2 hpre.2), ok_bind]
    rfl
  | isset idx =>
    refine ⟨b, ?_, h⟩
    rw [bitmapCall, h.isset hpre, ok_bind]
    rfl

end

end

theorem bitmapCreate_rep {bits : Nat} (hpos : 1 ≤ bits) (hle : bits ≤ 2 ^ 32 - 8) :
    ∃ b, bitmapCreate bits = .ok (some b) ∧ BitmapRep bits b ∅ := by
  obtain ⟨b, hb, hwf, hbits, hclear⟩ := bitmapCreate_ok hpos hle
  refine ⟨b, hb, hwf, hbits, fun i hi => ?_⟩
  simp [hclear i hi]

/-- **The bitmap is a set of numbers.**  Every legal sequence of calls returns, with the results
that the set gives, and `bitmap_isset` then tells which numbers are in the set. -/
theorem bitmap_refines {bits : Nat} (hpos : 1 ≤ bits) (hle : bits ≤ 2 ^ 32 - 8) :
    ∃ b, bitmapCreate bits = .ok (some b) ∧
      ∀ ops, Legal (BitmapOp.Pre bits) (BitmapOp.next bits) ∅ ops →
        ∃ b', runCalls bitmapCall b ops = .ok ((replay (BitmapOp.next bits) ∅ ops).1, b') ∧
          ∀ i, i < bits → bitmapIsset b' i =
            .ok (decide (i ∈ (replay (BitmapOp.next bits) ∅ ops).2)) := by
  obtain ⟨b, hb, hrep⟩ := bitmapCreate_rep hpos hle
  refine ⟨b, hb, fun ops hlegal => ?_⟩
  obtain ⟨b', hrun, hrep'⟩ :=
    runCalls_eq (R := BitmapRep bits) (fun _ _ op hr hpre => hr.call op hpre) hrep hlegal
  exact ⟨b', hrun, fun i hi => hrep'.isset hi⟩

/-- Ten bits: two are allocated, one is marked in between, and the first is given back and allocated
again. -/
theorem bitmap_refines_ten : ∃ b b', bitmapCreate 10 = .ok (some b) ∧
    runCalls bitmapCall b [.alloc, .mark 1, .alloc, .unmark 0, .isset 2, .alloc] =
      .ok ([.index 0, .void, .index 2, .void, .bool true, .index 0], b') ∧
    bitmapIsset b' 9 = .ok false := by
  obtain ⟨b, hb, hcalls⟩ := bitmap_refines (show 1 ≤ 10 by decide) (by decide)
  obtain ⟨b', hrun, hset⟩ := hcalls [.alloc, .mark 1, .alloc, .unmark 0, .isset 2,
    .alloc] (by decide)
  exact ⟨b, b', hb, hrun.trans rfl, (hset 9 (by decide)).trans (by decide)⟩

end JinxOS
