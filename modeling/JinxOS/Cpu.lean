import JinxOS.Lib.Outcome
import JinxOS.Lib.Word

/-!
# The processor, and how kernel code stops

The kernel is verified on one CPU.  Of that CPU the code below reads the interrupt-enable flag of
`EFLAGS`, the pointer `thiscpu` (null until `init_cpu` has run) and the counter of held spinlocks
in it; `iflag` is not a register but the one static variable in `synch/spinlock.c`, which every
spinlock of the system shares.

A kernel function that does not return has stopped in one of the ways of `Fault`; those that return
an error return a number of `klib/errno.h`.
-/

namespace JinxOS

/-- The ways in which a kernel function fails to return. -/
inductive Fault
  /-- `assert(exp)` with a false `exp`: the text is printed and the CPU halts. -/
  | assertFailed (exp : String)
  /-- `panic(msg)`: the message is printed and the CPU halts for good. -/
  | panic (msg : String)
  /-- A spinlock that no one is going to release. -/
  | spins
  /-- A loop that has made more iterations than there are addresses. -/
  | diverges
  /-- An access through the null pointer. -/
  | nullDeref
  /-- An access to an object that has been freed. -/
  | useAfterFree
  /-- A store outside of an array. -/
  | outside
  deriving DecidableEq, Repr

/-- `assert(exp)`. -/
def assert (exp : String) (b : Bool) : Except Fault Unit :=
  if b then .ok () else .error (.assertFailed exp)

@[simp] theorem assert_true (exp : String) : assert exp true = .ok () := rfl

@[simp] theorem assert_false (exp : String) :
    assert exp false = .error (.assertFailed exp) := rfl

theorem assert_ok {exp : String} {b : Bool} {u : Unit} : assert exp b = .ok u ↔ b = true := by
  cases b <;> simp [assert]

theorem assert_error {exp : String} {b : Bool} {e : Fault} (h : assert exp b = .error e) :
    e = .assertFailed exp := by
  cases b with
  | false => exact (Except.error.inj h).symm
  | true => exact nomatch h

/-- The object that a pointer points to. -/
def deref {α : Type} : Option α → Except Fault α
  | none => .error .nullDeref
  | some x => .ok x

@[simp] theorem deref_some {α : Type} (x : α) : deref (some x) = .ok x := rfl

/-- `EINVAL`. -/
def einval : Nat := 1

/-- `ENOMEM`. -/
def enomem : Nat := 2

/-- `EMPROC`. -/
def emproc : Nat := 6

/-- The number of iterations after which a loop is taken to diverge. -/
def loopFuel : Nat := 2 ^ 32

/-- An `unsigned int` as an `int`. -/
def wordToInt (w : Nat) : Int := if w < 2 ^ 31 then w else (w : Int) - 2 ^ 32

theorem wordToInt_eq {w : Nat} (h : w < 2 ^ 31) : wordToInt w = w := if_pos h

/-- The value that an `int` takes when it is assigned. -/
def toInt (x : Int) : Int := x.bmod (2 ^ 32)

theorem toInt_eq {x : Int} (hlo : -2 ^ 31 ≤ x := by omega) (hhi : x < 2 ^ 31 := by omega) :
    toInt x = x := by
  rw [toInt, Int.bmod_def]
  split <;> omega

theorem toInt_range (x : Int) : -2 ^ 31 ≤ toInt x ∧ toInt x < 2 ^ 31 := by
  rw [toInt, Int.bmod_def]
  split <;> omega

/-- An assignment to an `int` changes a number by a multiple of `2 ^ 32`. -/
theorem toInt_eq_sub (x : Int) : ∃ q, toInt x = x - 2 ^ 32 * q := by
  refine ⟨(x + 2 ^ 31) / 2 ^ 32, ?_⟩
  rw [toInt, Int.bmod_def]
  split <;> omega

@[simp] theorem toInt_toInt_add (x y : Int) : toInt (toInt x + y) = toInt (x + y) :=
  Int.bmod_add_bmod

/-- What spinlocks and the scheduler see of the CPU. -/
structure Cpu where
  /-- The interrupt-enable flag. -/
  intr : Bool
  /-- `static bool iflag` of `synch/spinlock.c`. -/
  iflag : Bool
  /-- `thiscpu`, null until `init_cpu`. -/
  thiscpu : Option Nat
  spinlocks : Nat
  deriving DecidableEq, Repr

/-- `cli()`: disable interrupts and say whether they were on. -/
def cli (c : Cpu) : Bool × Cpu := (c.intr, { c with intr := false })

/-- `ifx(set)`: enable interrupts if asked to, and leave them alone otherwise. -/
def ifx (c : Cpu) (set : Bool) : Cpu := if set then { c with intr := true } else c

end JinxOS
