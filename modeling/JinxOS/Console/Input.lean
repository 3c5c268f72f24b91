import JinxOS.Hw.Kbd
import JinxOS.Lib.Ring
import JinxOS.Lib.Runs

/-!
# The console's input: two producers and a consumer

The interrupt handlers of the keyboard and of the serial line store characters in the console's
buffer, and `getc` takes them out.  There is no test for a full buffer: a handler that comes round
to a character that has not been taken overwrites it, and `getc` sees only two indices, from which
it cannot tell how often that has happened.

The handlers run with interrupts off, and so each of them is one step.  Their gates are trap gates,
which leave the interrupt flag alone, but the stubs in `kern/asm.S` that call them begin with `cli`.
`getc` is four steps, and a handler may run between any two of them.

The state has the list of all characters ever stored and of those that `getc` has taken, which no
code looks at.  `InputInv` relates them to the indices: `wpos` is the number of characters stored,
modulo the size of the buffer, and `rpos` is the number of some character up to which everything
taken comes before.

* `InputInv.step` — each step keeps this;
* `inputRun_ring` — **what holds of the buffer in every run**.
-/

namespace JinxOS

open Ring

/-! ## The system -/

/-- `irq_handler_serial`: the character that it stores, for the line status and the byte received.
-/
def irqHandlerSerial (serial : Bool) (lsr rx : UInt8) : Option UInt8 :=
  if serial then if lsr &&& 0x01 = 0 then none else some rx else none

/-- The input side of the console. -/
structure Input where
  con : Console
  /-- The static variable of the keyboard handler. -/
  shift : BitVec 32
  /-- `serial`: is there a serial line? -/
  serial : Bool
  /-- Where `getc` is. -/
  pc : GetcPc
  /-- The characters that have been stored. -/
  stored : List UInt8
  /-- The characters that `getc` has taken from the buffer. -/
  taken : List UInt8

/-- What may happen next. -/
inductive InputEvent
  /-- An interrupt of the keyboard, which sends the byte. -/
  | kbd (data : UInt8)
  /-- An interrupt of the serial line, with its status and the byte received. -/
  | serial (lsr rx : UInt8)
  /-- `getc` is called, or goes on. -/
  | getc
  deriving DecidableEq, Repr

/-- The end of both handlers, if there is a character to store. -/
def Input.receive (s : Input) : Option UInt8 → Input
  | none => s
  | some c => { s with con := s.con.store c, stored := s.stored ++ [c] }

/-- The system after an event. -/
def inputNext (s : Input) : InputEvent → Input
  | .kbd data =>
    let r := irqHandlerKdb s.shift data
    { s with shift := r.shift }.receive r.char
  | .serial lsr rx => s.receive (irqHandlerSerial s.serial lsr rx)
  | .getc =>
    let (con, pc) := getcStep s.con s.pc
    { s with
      con := con
      pc := pc
      taken := match s.pc with
        | .checked => s.taken ++ [s.con.buf s.con.rpos]
        | _ => s.taken }

/-- The system at the start: `console` is zero, and `getc` has not been called. -/
def Input.Init (s : Input) : Prop :=
  s.con.rpos = 0 ∧ s.con.wpos = 0 ∧ s.pc = .idle ∧ s.stored = [] ∧ s.taken = []

/-- A run of the system. -/
def InputRun (tr : List (Input × InputEvent)) (s : Input) : Prop :=
  Run Input.Init (fun s e s' => s' = inputNext s e) tr s

/-- How many characters have been stored but not taken. -/
def Input.untaken (s : Input) : Nat := s.stored.length - s.taken.length

/-! ## The invariant -/

/-- Where `rpos` is, when the next character to look for is number `next`. -/
def RposAt (next : Nat) (s : Input) : Prop :=
  match s.pc with
  | .idle => s.con.rpos = next % consbufsize
  | .checked => s.con.rpos = next % consbufsize ∧ next < s.stored.length
  | .loaded _ => ∃ m, next = m + 1 ∧ s.con.rpos = m % consbufsize
  | .bumped _ => ∃ m, next = m + 1 ∧ s.con.rpos = m % consbufsize + 1

/-- **The buffer and its history**, with the number of the next character. -/
structure InputInv (next : Nat) (s : Input) : Prop where
  holds : Holds consbufsize s.con.buf s.stored
  wpos_eq : s.con.wpos = s.stored.length % consbufsize
  rpos_at : RposAt next s
  next_le : next ≤ s.stored.length
  taken_sub : s.taken.Sublist (s.stored.take next)

theorem consbufsize_pos : 0 < consbufsize := by decide

/-- An index that is counted up and set back at the end of the buffer. -/
theorem wrap_consbufsize (m : Nat) : (if Word.add (m % consbufsize) 1 = consbufsize then 0
    else Word.add (m % consbufsize) 1) = (m + 1) % consbufsize := by
  have hlt := Nat.mod_lt m consbufsize_pos
  have hadd : Word.add (m % consbufsize) 1 = m % consbufsize + 1 :=
    Word.add_eq (by rw [consbufsize] at hlt ⊢; omega)
  rw [hadd, wrap_eq consbufsize_pos]

theorem InputInv.receive {next : Nat} {s : Input} (h : InputInv next s) (c : Option UInt8) :
    InputInv next (s.receive c) := by
  cases c with
  | none => exact h
  | some c =>
    have hlen : (s.stored ++ [c]).length = s.stored.length + 1 := List.length_append
    refine ⟨?_, ?_, ?_, ?_, ?_⟩
    · have hpush := h.holds.push c
      rw [← h.wpos_eq] at hpush
      exact hpush
    · dsimp only [Input.receive, Console.store]
      rw [h.wpos_eq, wrap_consbufsize, hlen]
    · have hrpos := h.rpos_at
      rw [RposAt] at hrpos ⊢
      dsimp only [Input.receive, Console.store]
      cases hpc : s.pc with
      | idle | loaded c' | bumped c' =>
        rw [hpc] at hrpos
        exact hrpos
      | checked =>
        rw [hpc] at hrpos
        exact ⟨hrpos.1, by rw [hlen]; exact Nat.lt_succ_of_lt hrpos.2⟩
    · dsimp only [Input.receive]
      rw [hlen]
      exact Nat.le_succ_of_le h.next_le
    · dsimp only [Input.receive]
      rw [List.take_append_of_le_length h.next_le]
      exact h.taken_sub

/-- What a piece of `getc` does to the history: nothing, or it takes a character that is not older
than the next one; this is the next one itself if not too many have been stored since. -/
def Takes (next next' : Nat) (s s' : Input) : Prop :=
  (next' = next ∧ s'.taken = s.taken) ∨
    ∃ j x, next' = j + 1 ∧ s.stored[j]? = some x ∧ s'.taken = s.taken ++ [x] ∧
      (s.stored.length ≤ next + consbufsize → j = next)

theorem InputInv.getc {next : Nat} {s : Input} (h : InputInv next s) :
    ∃ next', InputInv next' (inputNext s .getc) ∧ (inputNext s .getc).stored = s.stored ∧
      Takes next next' s (inputNext s .getc) := by
  obtain ⟨con, shift, serial, pc, stored, taken⟩ := s
  obtain ⟨hholds, hwpos, hrpos, hle, hsub⟩ := h
  cases pc with
  | idle =>
    refine ⟨next, ⟨hholds, hwpos, ?_, hle, hsub⟩, rfl, .inl ⟨rfl, rfl⟩⟩
    by_cases hne : con.rpos = con.wpos
    · simpa [RposAt, inputNext, getcStep, hne] using hrpos
    · -- the test tells that the next character has been stored
      have hlt : next < stored.length := by
        refine Nat.lt_of_le_of_ne hle fun heq => hne ?_
        rw [hwpos, ← heq]
        exact hrpos
      simpa [RposAt, inputNext, getcStep, hne] using ⟨hrpos, hlt⟩
  | checked =>
    obtain ⟨hrpos, hlt⟩ := hrpos
    obtain ⟨j, x, hnext, hmod, hx, hslot, hlag⟩ := hholds.newest consbufsize_pos hlt
    obtain ⟨hj, -⟩ := List.getElem?_eq_some_iff.1 hx
    have hread : con.buf con.rpos = x := by
      rw [hrpos]
      exact hslot
    have htaken : (inputNext ⟨con, shift, serial, .checked, stored, taken⟩ .getc).taken =
        taken ++ [x] := by
      rw [← hread]
      rfl
    refine ⟨j + 1, ⟨hholds, hwpos, ⟨j, rfl, hrpos.trans hmod.symm⟩, hj, ?_⟩, rfl,
      .inr ⟨j, x, rfl, hx, htaken, hlag⟩⟩
    rw [htaken]
    exact sublist_take_concat hsub hnext hx
  | loaded c =>
    obtain ⟨m, rfl, hrpos⟩ := hrpos
    refine ⟨m + 1, ⟨hholds, hwpos, ⟨m, rfl, ?_⟩, hle, hsub⟩, rfl, .inl ⟨rfl, rfl⟩⟩
    have hlt := Nat.mod_lt m consbufsize_pos
    show Word.add con.rpos 1 = _
    rw [hrpos, Word.add_eq (by rw [consbufsize] at hlt ⊢; omega)]
  | bumped c =>
    obtain ⟨m, rfl, hrpos⟩ := hrpos
    refine ⟨m + 1, ⟨hholds, hwpos, ?_, hle, hsub⟩, rfl, .inl ⟨rfl, rfl⟩⟩
    show (if con.rpos = consbufsize then 0 else con.rpos) = (m + 1) % consbufsize
    rw [hrpos, wrap_eq consbufsize_pos]

/-- **Every event keeps the invariant**; the characters stored grow at the end, and `getc` takes at
most one. -/
theorem InputInv.step {next : Nat} {s : Input} (h : InputInv next s) (e : InputEvent) :
    ∃ next', InputInv next' (inputNext s e) ∧ s.stored <+: (inputNext s e).stored ∧
      Takes next next' s (inputNext s e) := by
  have hreceive (s : Input) (h : InputInv next s) (c : Option UInt8) :
      InputInv next (s.receive c) ∧ s.stored <+: (s.receive c).stored ∧
        (s.receive c).taken = s.taken := by
    refine ⟨h.receive c, ?_⟩
    cases c with
    | none => exact ⟨List.prefix_rfl, rfl⟩
    | some c => exact ⟨List.prefix_append _ _, rfl⟩
  cases e with
  | kbd data =>
    have hshift : InputInv next { s with shift := (irqHandlerKdb s.shift data).shift } :=
      ⟨h.holds, h.wpos_eq, h.rpos_at, h.next_le, h.taken_sub⟩
    obtain ⟨hinv, hpre, htaken⟩ := hreceive _ hshift (irqHandlerKdb s.shift data).char
    exact ⟨next, hinv, hpre, .inl ⟨rfl, htaken⟩⟩
  | serial lsr rx =>
    obtain ⟨hinv, hpre, htaken⟩ := hreceive s h (irqHandlerSerial s.serial lsr rx)
    exact ⟨next, hinv, hpre, .inl ⟨rfl, htaken⟩⟩
  | getc =>
    obtain ⟨next', hinv, hstored, htakes⟩ := h.getc
    exact ⟨next', hinv, hstored ▸ List.prefix_rfl, htakes⟩

theorem inputInv_init {s : Input} (h : s.Init) : InputInv 0 s := by
  obtain ⟨hrpos, hwpos, hpc, hstored, htaken⟩ := h
  refine ⟨?_, ?_, ?_, Nat.zero_le _, ?_⟩
  · rw [hstored]
    exact holds_nil _ _
  · rw [hwpos, hstored]
    rfl
  · rw [RposAt, hpc]
    exact hrpos
  · rw [htaken]
    exact List.nil_sublist _

/-! ## Runs -/

variable {tr : List (Input × InputEvent)} {s : Input}

theorem InputRun.inv (h : InputRun tr s) : ∃ next, InputInv next s := by
  refine Run.invariant (I := fun s => ∃ next, InputInv next s)
    (fun s hs => ⟨0, inputInv_init hs⟩) ?_ h
  rintro s e s' ⟨next, hinv⟩ rfl
  obtain ⟨next', hinv', -⟩ := hinv.step e
  exact ⟨next', hinv'⟩

/-- As long as the buffer does not overflow, `getc` takes every character. -/
theorem InputRun.inv_prefix (h : InputRun tr s) (hroom : ∀ e ∈ tr, e.1.untaken ≤ consbufsize - 1) :
    ∃ next, InputInv next s ∧ s.taken = s.stored.take next := by
  refine Run.invariant_of (I := fun s => ∃ next, InputInv next s ∧ s.taken = s.stored.take next)
    (C := fun s _ => s.untaken ≤ consbufsize - 1) (fun s hs => ⟨0, inputInv_init hs, ?_⟩) ?_ h hroom
  · rw [hs.2.2.2.2, List.take_zero]
  · rintro s e s' ⟨next, hinv, htaken⟩ hfew rfl
    obtain ⟨next', hinv', ⟨rest, hrest⟩, ⟨rfl, hsame⟩ | ⟨j, x, rfl, hx, hmore, hlag⟩⟩ := hinv.step e
    · refine ⟨next', hinv', ?_⟩
      rw [hsame, htaken, ← hrest, List.take_append_of_le_length hinv.next_le]
    · have hlen : s.taken.length = next := by
        rw [htaken, List.length_take]
        exact Nat.min_eq_left hinv.next_le
      have hj : j = next := by
        refine hlag ?_
        rw [Input.untaken, hlen, consbufsize] at hfew
        rw [consbufsize]
        omega
      subst hj
      obtain ⟨hlt, hget⟩ := List.getElem?_eq_some_iff.1 hx
      refine ⟨j + 1, hinv', ?_⟩
      rw [hmore, htaken, ← hrest, List.take_append_of_le_length hlt,
        List.take_succ_eq_append_getElem hlt, hget]

theorem InputInv.rpos_lt {next : Nat} (h : InputInv next s) (hpc : ∀ c, s.pc ≠ .bumped c) :
    s.con.rpos < consbufsize := by
  have hrpos := h.rpos_at
  rw [RposAt] at hrpos
  cases hat : s.pc with
  | idle =>
    rw [hat] at hrpos
    exact hrpos ▸ Nat.mod_lt _ consbufsize_pos
  | checked =>
    rw [hat] at hrpos
    exact hrpos.1 ▸ Nat.mod_lt _ consbufsize_pos
  | loaded c =>
    rw [hat] at hrpos
    obtain ⟨m, -, hrpos⟩ := hrpos
    exact hrpos ▸ Nat.mod_lt _ consbufsize_pos
  | bumped c => exact absurd hat (hpc c)

/-- **The ring buffer.**  In every run, with the interrupts in any order and at any point of `getc`:
`wpos` is an index of the buffer, and so is `rpos`, except between the increment and the test for
the end of the buffer, when no one else reads it; what `getc` has taken is a subsequence of what the
handlers have stored; and it is a prefix of that as long as there were never more than `CONSBUFSIZE
- 1` characters stored and not taken. -/
theorem inputRun_ring (h : InputRun tr s) :
    s.con.wpos < consbufsize ∧ ((∀ c, s.pc ≠ .bumped c) → s.con.rpos < consbufsize) ∧
      s.taken.Sublist s.stored ∧
      ((∀ e ∈ tr, e.1.untaken ≤ consbufsize - 1) → s.taken <+: s.stored) := by
  obtain ⟨next, hinv⟩ := h.inv
  refine ⟨?_, hinv.rpos_lt, hinv.taken_sub.trans (List.take_sublist _ _), fun hroom => ?_⟩
  · rw [hinv.wpos_eq]
    exact Nat.mod_lt _ consbufsize_pos
  · obtain ⟨next, -, htaken⟩ := h.inv_prefix hroom
    rw [htaken]
    exact List.take_prefix _ _

/-- A key on the keyboard and a character from the serial line, which comes while `getc` is taking
the first one. -/
theorem inputRun_ring_two : ∃ tr s, InputRun tr s ∧ s.stored = [byte 'a', byte 'b'] ∧
    s.taken = [byte 'a'] ∧ s.taken <+: s.stored := by
  have hrun : InputRun _ _ := Run.of_history inputNext
    (show Input.Init ⟨⟨fun _ => 0, 0, 0⟩, 0, true, .idle, [], []⟩ from ⟨rfl, rfl, rfl, rfl, rfl⟩)
    [.kbd 0x1E, .getc, .serial 1 (byte 'b'), .getc, .getc, .getc] (fun _ _ => rfl)
  exact ⟨_, _, hrun, by decide, by decide, (inputRun_ring hrun).2.2.2 (by decide)⟩

end JinxOS
