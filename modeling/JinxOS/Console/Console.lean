import JinxOS.Cpu

/-!
# The console's input buffer

`struct console` of `console/console.h`, with the code that works on it: the lines at the end of
both interrupt handlers, which are the same, and `getc`.  Interrupts may come in the middle of
`getc`, so there is a second version of it that is cut up: `GetcPc` says where it is, and `getcStep`
goes on from there.  `getc_eq_steps` puts the pieces together again.
-/

namespace JinxOS

/-- `CONSBUFSIZE`. -/
def consbufsize : Nat := 2000

/-- `struct console`. -/
structure Console where
  buf : Nat → UInt8
  rpos : Nat
  wpos : Nat

/-- `console.buf[console.wpos++] = c`, with the wrap-around. -/
def Console.store (con : Console) (c : UInt8) : Console :=
  let wpos := Word.add con.wpos 1
  { con with
    buf := Function.update con.buf con.wpos c
    wpos := if wpos = consbufsize then 0 else wpos }

/-- `getc`: what it returns, and the console. -/
def getc (con : Console) : UInt8 × Console :=
  if con.rpos ≠ con.wpos then
    let c := con.buf con.rpos
    let rpos := Word.add con.rpos 1
    (c, { con with rpos := if rpos = consbufsize then 0 else rpos })
  else (0, con)

/-! ## `getc` in pieces -/

/-- Where `getc` is. -/
inductive GetcPc
  /-- Not called, or before the test. -/
  | idle
  /-- After the test, which was true. -/
  | checked
  /-- The character has been read. -/
  | loaded (c : UInt8)
  /-- `rpos` has been incremented. -/
  | bumped (c : UInt8)
  deriving DecidableEq, Repr

/-- The next piece of `getc`. -/
def getcStep (con : Console) : GetcPc → Console × GetcPc
  | .idle => (con, if con.rpos ≠ con.wpos then .checked else .idle)
  | .checked => (con, .loaded (con.buf con.rpos))
  | .loaded c => ({ con with rpos := Word.add con.rpos 1 }, .bumped c)
  | .bumped _ => ({ con with rpos := if con.rpos = consbufsize then 0 else con.rpos }, .idle)

theorem getc_eq_steps {con : Console} (hne : con.rpos ≠ con.wpos) :
    ∃ c, getcStep con .idle = (con, .checked) ∧ getcStep con .checked = (con, .loaded c) ∧
      ∃ con', getcStep con (.loaded c) = (con', .bumped c) ∧
        getcStep con' (.bumped c) = ((getc con).2, .idle) ∧ (getc con).1 = c := by
  refine ⟨con.buf con.rpos, ?_, rfl, _, rfl, ?_, ?_⟩
  · rw [getcStep, if_pos hne]
  · rw [getc, if_pos hne]
    rfl
  · rw [getc, if_pos hne]

end JinxOS
