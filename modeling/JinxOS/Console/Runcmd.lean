import JinxOS.Klib.Format
import JinxOS.Klib.StringBytes
import JinxOS.Lib.Words
import Mathlib.Data.List.Find

/-!
# Command lines

`runcmd` of `console/console.c` takes a line apart in place: it overwrites the whitespace with zeros
while it keeps pointers to the words in `argv`, which has 16 slots.  Then it looks for a command
with the name that is the first word.

What it is to find are the maximal runs of `JinxOS.Lib.Words`, with the whitespace as separators.
The loops are followed from left to right.  At each point the memory is `cutTo m a l pos`, the
memory at the beginning with the whitespace of the first `pos` characters overwritten, and the
scanner is at an edge whenever the outer loop begins again.

* `splitArgs_cases` — what the outer loop does from an edge on, by induction on its iterations;
* `runcmd_splits` — **the arguments of a command are the words of the line**, and none is invoked if
  there are more than 15 words.
-/

namespace JinxOS

/-! ## The code -/

/-- `WHITESPACE`. -/
def whitespace : List UInt8 := [byte ' ', byte '\t', byte '\r', byte '\n']

/-- `MAXARGS`. -/
def maxargs : Nat := 16

/-- The functions in `cmds`. -/
inductive CmdFunc
  | help | info | clear | ticks | reboot | test
  deriving DecidableEq, Repr

/-- `struct cmd`, without the description. -/
structure Cmd where
  name : List UInt8
  func : CmdFunc

/-- `cmds`. -/
def cmds : List Cmd :=
  [⟨"help".toList.map byte, .help⟩, ⟨"info".toList.map byte, .info⟩,
    ⟨"clear".toList.map byte, .clear⟩, ⟨"ticks".toList.map byte, .ticks⟩,
    ⟨"reboot".toList.map byte, .reboot⟩, ⟨"test".toList.map byte, .test⟩]

/-- What `runcmd` does when it has taken the line apart. -/
inductive CmdAction
  /-- It returns 0. -/
  | nothing
  /-- It prints a text with one argument, and returns 0. -/
  | print (fmt : String) (arg : Nat)
  /-- It calls a command. -/
  | invoke (func : CmdFunc) (argc : Nat) (argv : List Nat)
  deriving DecidableEq, Repr

/-- `argv[i] = p`. -/
def setArg (argv : List Nat) (i p : Nat) : Except Fault (List Nat) :=
  if i < argv.length then .ok (argv.set i p) else .error .outside

/-- The loop that gobbles whitespace: memory and `buf` after it. -/
def gobble : Nat → ByteMem → Nat → Except Fault (ByteMem × Nat)
  | 0, _, _ => .error .diverges
  | fuel + 1, m, buf =>
    if m buf ≠ 0 ∧ (strchr whitespace (m buf)).isSome then
      gobble fuel (Function.update m buf 0) (Word.add buf 1)
    else .ok (m, buf)

/-- The loop that scans past an argument. -/
def scanArg (m : ByteMem) : Nat → Nat → Except Fault Nat
  | 0, _ => .error .diverges
  | fuel + 1, buf =>
    if m buf ≠ 0 ∧ ¬ (strchr whitespace (m buf)).isSome then scanArg m fuel (Word.add buf 1)
    else .ok buf

/-- The outer loop.  It ends with `argc` and `argv`, or there are too many arguments. -/
def splitArgs : Nat → ByteMem → Nat → Nat → List Nat →
    Except Fault (ByteMem × Option (Nat × List Nat))
  | 0, _, _, _, _ => .error .diverges
  | fuel + 1, m, buf, argc, argv => do
    let (m, buf) ← gobble loopFuel m buf
    if m buf = 0 then .ok (m, some (argc, argv))
    else if argc = maxargs - 1 then .ok (m, none)
    else
      let argv ← setArg argv argc buf
      let buf ← scanArg m loopFuel buf
      splitArgs fuel m buf (argc + 1) argv

/-- `strcmp` of a string in memory with a constant. -/
def strcmpAt (m : ByteMem) (s1 : Nat) : List UInt8 → Int
  | [] => if m s1 = 0 then 0 else 1
  | c :: s2 =>
    if m s1 = c then if m s1 = 0 then 0 else strcmpAt m (Word.add s1 1) s2
    else if m s1 < c then -1 else 1

/-- Lookup and invoke the command. -/
def lookupCmd (m : ByteMem) (argc : Nat) (argv : List Nat) : CmdAction :=
  if argc = 0 then .nothing
  else
    match cmds.find? fun cmd => strcmpAt m (argv.getD 0 0) cmd.name = 0 with
    | some cmd => .invoke cmd.func argc argv
    | none => .print "Unknown command '%s'\n" (argv.getD 0 0)

/-- `runcmd`: memory, and what it does in the end. -/
def runcmd (m : ByteMem) (buf : Nat) : Except Fault (ByteMem × CmdAction) := do
  match ← splitArgs loopFuel m buf 0 (List.replicate maxargs 0) with
  | (m, none) => .ok (m, .print "Too many arguments (max %d)\n" maxargs)
  | (m, some (argc, argv)) =>
    let argv ← setArg argv argc 0
    .ok (m, lookupCmd m argc argv)

/-! ## The line while it is taken apart -/

/-- The characters of the line that are whitespace, by their positions. -/
def WhiteAt (l : List UInt8) (k : Nat) : Prop := l.getD k 0 ∈ whitespace

/-- Memory with the whitespace among the first `pos` characters of a line overwritten. -/
def cutTo (m : ByteMem) (a : Nat) (l : List UInt8) (pos : Nat) : ByteMem := fun x =>
  if a ≤ x ∧ x < a + pos ∧ l.getD (x - a) 0 ∈ whitespace then 0 else m x

section
variable {m : ByteMem} {a pos : Nat} {l : List UInt8}

theorem cutTo_zero : cutTo m a l 0 = m := by
  funext x
  exact if_neg fun h => by omega

theorem cutTo_of_le (hl : Spells m a l) {k : Nat} (hk : pos ≤ k)
    (hlen : k ≤ l.length) : cutTo m a l pos (a + k) = l.getD k 0 := by
  rw [cutTo, if_neg (by omega)]
  exact hl k hlen

theorem cutTo_succ_of_white (hw : WhiteAt l pos) :
    Function.update (cutTo m a l pos) (a + pos) 0 = cutTo m a l (pos + 1) := by
  funext x
  rw [Function.update_apply, cutTo, cutTo]
  by_cases hx : x = a + pos
  · rw [if_pos hx, if_pos ⟨by omega, by omega, by rw [hx, Nat.add_sub_cancel_left]; exact hw⟩]
  · rw [if_neg hx]
    by_cases hin : a ≤ x ∧ x < a + pos ∧ l.getD (x - a) 0 ∈ whitespace
    · rw [if_pos hin, if_pos ⟨hin.1, by omega, hin.2.2⟩]
    · rw [if_neg hin, if_neg fun h => hin ⟨h.1, by omega, h.2.2⟩]

theorem cutTo_add_of_not_white {n : Nat} (hw : ∀ k, pos ≤ k → k < pos + n → ¬ WhiteAt l k) :
    cutTo m a l pos = cutTo m a l (pos + n) := by
  funext x
  rw [cutTo, cutTo]
  by_cases hin : a ≤ x ∧ x < a + pos ∧ l.getD (x - a) 0 ∈ whitespace
  · rw [if_pos hin, if_pos ⟨hin.1, by omega, hin.2.2⟩]
  · rw [if_neg hin, if_neg fun h => ?_]
    rcases Nat.lt_or_ge x (a + pos) with hlt | hge
    · exact hin ⟨h.1, hlt, h.2.2⟩
    · exact hw (x - a) (by omega) (by omega) h.2.2

/-- What the tests of both inner loops say about the character at `pos`. -/
theorem loopTests (hl : Spells m a l) (hnul : 0 ∉ l) (hpos : pos < l.length) :
    cutTo m a l pos (a + pos) ≠ 0 ∧
      ((strchr whitespace (cutTo m a l pos (a + pos))).isSome ↔ WhiteAt l pos) := by
  rw [cutTo_of_le hl (Nat.le_refl pos) hpos.le]
  have hne : l.getD pos 0 ≠ 0 := by
    rw [List.getD_eq_getElem _ _ hpos]
    exact fun h => hnul (h ▸ List.getElem_mem hpos)
  exact ⟨hne, isSome_strchr hne (by decide)⟩

theorem cutTo_end (hl : Spells m a l) : cutTo m a l l.length (a + l.length) = 0 := by
  rw [cutTo_of_le hl (Nat.le_refl _) (Nat.le_refl _)]
  exact List.getD_eq_default _ _ (Nat.le_refl _)

end

/-! ## The loops -/

section
variable {m : ByteMem} {a : Nat} {l : List UInt8}

/-- **Gobbling whitespace** goes on to the next character that is something else. -/
theorem gobble_eq (hl : Spells m a l) (hnul : 0 ∉ l) (hfit : a + l.length < 2 ^ 32) {e : Nat}
    (hlen : e ≤ l.length) (hstop : e = l.length ∨ ¬ WhiteAt l e) :
    ∀ (fuel : Nat) {pos : Nat}, pos ≤ e → (∀ k, pos ≤ k → k < e → WhiteAt l k) →
      l.length - pos < fuel →
      gobble fuel (cutTo m a l pos) (a + pos) = .ok (cutTo m a l e, a + e) := by
  intro fuel
  induction fuel with
  | zero => exact fun _ _ hfuel => absurd hfuel (Nat.not_lt_zero _)
  | succ fuel ih =>
    intro pos hle hwhite hfuel
    rw [gobble]
    rcases Nat.eq_or_lt_of_le hle with rfl | hlt
    · rcases hstop with rfl | hnot
      · rw [if_neg fun h => h.1 (cutTo_end hl)]
      · rcases Nat.eq_or_lt_of_le hlen with rfl | hlt
        · rw [if_neg fun h => h.1 (cutTo_end hl)]
        · rw [if_neg fun h => hnot ((loopTests hl hnul hlt).2.1 h.2)]
    · obtain ⟨hne, hiff⟩ := loopTests hl hnul (Nat.lt_of_lt_of_le hlt hlen)
      have hw : WhiteAt l pos := hwhite pos (Nat.le_refl pos) hlt
      rw [if_pos ⟨hne, hiff.2 hw⟩, cutTo_succ_of_white hw, Word.add_eq, Nat.add_assoc]
      exact ih hlt (fun k hk => hwhite k (by omega)) (by omega)

/-- **Scanning past an argument** goes on to the end of its run. -/
theorem scanArg_eq (hl : Spells m a l) (hnul : 0 ∉ l) (hfit : a + l.length < 2 ^ 32) {i n : Nat}
    (hrun : MaxRun (WhiteAt l) l.length i n) :
    ∀ (fuel : Nat) {pos : Nat}, i ≤ pos → pos ≤ i + n → l.length - pos < fuel →
      scanArg (cutTo m a l i) fuel (a + pos) = .ok (a + (i + n)) := by
  intro fuel
  have hsame : ∀ {pos}, i ≤ pos → pos ≤ i + n → cutTo m a l i = cutTo m a l pos := by
    intro pos hi hpos
    obtain ⟨d, rfl⟩ := Nat.exists_eq_add_of_le hi
    exact cutTo_add_of_not_white fun k hk hlt => hrun.inside k hk (by omega)
  have hfits := hrun.fits
  induction fuel with
  | zero => exact fun _ _ hfuel => absurd hfuel (Nat.not_lt_zero _)
  | succ fuel ih =>
    intro pos hi hpos hfuel
    rw [scanArg, hsame hi hpos]
    rcases Nat.eq_or_lt_of_le hpos with rfl | hlt
    · rcases Nat.eq_or_lt_of_le hfits with heq | hlt
      · rw [heq, if_neg fun h => h.1 (cutTo_end hl)]
      · have hwhite : WhiteAt l (i + n) := hrun.right.resolve_left hlt.ne
        rw [if_neg fun h => h.2 ((loopTests hl hnul hlt).2.2 hwhite)]
    · obtain ⟨hne, hiff⟩ := loopTests hl hnul (Nat.lt_of_lt_of_le hlt hfits)
      rw [if_pos ⟨hne, fun h => hrun.inside pos hi hlt (hiff.1 h)⟩, ← hsame hi hpos,
        Word.add_eq, Nat.add_assoc]
      exact ih (by omega) hlt (by omega)

/-- The slots of `argv` when some of them have been filled. -/
def slots (ps : List Nat) : List Nat := ps ++ List.replicate (maxargs - ps.length) 0

theorem length_slots {ps : List Nat} (h : ps.length ≤ maxargs) : (slots ps).length = maxargs := by
  rw [slots, List.length_append, List.length_replicate]
  omega

theorem setArg_slots (ps : List Nat) (h : ps.length < maxargs) (p : Nat) :
    setArg (slots ps) ps.length p = .ok (slots (ps ++ [p])) := by
  obtain ⟨d, hd⟩ := Nat.exists_eq_add_of_lt h
  rw [setArg, if_pos (by rw [length_slots h.le]; exact h), slots, slots,
    List.set_append_right _ _ (Nat.le_refl _), Nat.sub_self, List.length_append,
    List.length_singleton, show maxargs - ps.length = d + 1 by omega,
    show maxargs - (ps.length + 1) = d by omega, List.replicate_succ, List.set_cons_zero,
    List.append_assoc, List.singleton_append]

/-- **The outer loop**, from an edge on.  Either the rest of the words fits and all of them are put
into `argv`, or the loop stops with too many arguments. -/
theorem splitArgs_cases (hl : Spells m a l) (hnul : 0 ∉ l) (hfit : a + l.length < 2 ^ 32) :
    ∀ (fuel pos : Nat) (ps : List Nat), pos ≤ l.length →
      Edge (WhiteAt l) l.length pos → l.length - pos < fuel → ps.length < maxargs →
      ∃ ws, SplitsFrom (WhiteAt l) l.length pos ws ∧
        (ps.length + ws.length < maxargs →
          splitArgs fuel (cutTo m a l pos) (a + pos) ps.length (slots ps) =
            .ok (cutTo m a l l.length, some (ps.length + ws.length,
              slots (ps ++ ws.map fun w => a + w.1)))) ∧
        (maxargs ≤ ps.length + ws.length →
          ∃ m', splitArgs fuel (cutTo m a l pos) (a + pos) ps.length (slots ps) =
            .ok (m', none)) := by
  intro fuel
  induction fuel with
  | zero => exact fun _ _ _ _ hfuel => absurd hfuel (Nat.not_lt_zero _)
  | succ fuel ih =>
    intro pos ps hpos hedge hfuel hps
    have hfuel' : ∀ k, l.length - k < loopFuel := fun k => by
      rw [loopFuel]
      omega
    obtain ⟨e, hle, hlen, hall, hstop⟩ := exists_stop (WhiteAt l) hpos
    have hgobble := gobble_eq hl hnul hfit hlen hstop loopFuel hle hall (hfuel' pos)
    rcases Nat.eq_or_lt_of_le hlen with rfl | hlt
    · -- the line ends here
      refine ⟨[], (SplitsFrom.nil (Nat.le_refl _)).skip hle hall, fun _ => ?_, fun hmany => ?_⟩
      · simp only [splitArgs, hgobble, bind, Except.bind, cutTo_end hl, if_true, List.length_nil,
          Nat.add_zero, List.map_nil, List.append_nil]
      · exact absurd hmany (Nat.not_le.2 hps)
    · have hin : ¬ WhiteAt l e := hstop.resolve_left hlt.ne
      have hne : ¬ cutTo m a l e (a + e) = 0 := (loopTests hl hnul hlt).1
      obtain ⟨n, hrun⟩ := exists_maxRun hlt (hedge.left_of_skip hle hall hlt hin) hin
      have hn := hrun.pos
      have hfits := hrun.fits
      by_cases hfull : ps.length = maxargs - 1
      · -- there is no slot for this word
        obtain ⟨ws, hws⟩ := exists_splitsFrom hfits hrun.edge
        refine ⟨_, (hws.cons hrun).skip hle hall, fun hfew => ?_, fun _ => ⟨cutTo m a l e, ?_⟩⟩
        · rw [List.length_cons] at hfew
          omega
        · simp only [splitArgs, hgobble, bind, Except.bind, if_neg hne, if_pos hfull]
      · have hscan := scanArg_eq hl hnul hfit hrun loopFuel (Nat.le_refl e) (by omega) (hfuel' e)
        have hsame : cutTo m a l e = cutTo m a l (e + n) := cutTo_add_of_not_white hrun.inside
        have hlen1 : (ps ++ [a + e]).length = ps.length + 1 := List.length_append
        have hstep : splitArgs (fuel + 1) (cutTo m a l pos) (a + pos) ps.length (slots ps) =
            splitArgs fuel (cutTo m a l (e + n)) (a + (e + n)) (ps ++ [a + e]).length
              (slots (ps ++ [a + e])) := by
          simp only [splitArgs, hgobble, bind, Except.bind, if_neg hne, if_neg hfull,
            setArg_slots ps hps, hscan, hlen1, ← hsame]
        obtain ⟨ws, hws, hfew, hmany⟩ :=
          ih (e + n) (ps ++ [a + e]) hfits hrun.edge (by omega) (by rw [hlen1]; omega)
        refine ⟨_, (hws.cons hrun).skip hle hall, fun h => ?_, fun h => ?_⟩
        · rw [List.length_cons] at h ⊢
          rw [hstep, hfew (by rw [hlen1]; omega), hlen1, List.map_cons, List.append_assoc,
            List.singleton_append, Nat.add_assoc, Nat.add_comm 1]
        · rw [List.length_cons] at h
          rw [hstep]
          exact hmany (by rw [hlen1]; omega)

end

/-! ## The arguments -/

/-- A word of the line is a string when the line has been taken apart. -/
theorem spells_cutTo {m : ByteMem} {a i n : Nat} {l : List UInt8} (hl : Spells m a l)
    (hrun : MaxRun (WhiteAt l) l.length i n) :
    Spells (cutTo m a l l.length) (a + i) ((l.drop i).take n) := by
  have hfits := hrun.fits
  have hlen : ((l.drop i).take n).length = n := by
    rw [List.length_take, List.length_drop]
    omega
  intro k hk
  rw [hlen] at hk
  rw [cutTo, Nat.add_assoc, Nat.add_sub_cancel_left]
  rcases Nat.lt_or_eq_of_le hk with hlt | rfl
  · have hin : ¬ l.getD (i + k) 0 ∈ whitespace := hrun.inside (i + k) (by omega) (by omega)
    rw [if_neg fun h => hin h.2.2, hl (i + k) (by omega), List.getD_eq_getElem _ _ (by omega),
      List.getD_eq_getElem _ _ (by omega), List.getElem_take, List.getElem_drop]
  · rw [List.getD_eq_default ((l.drop i).take k) _ (by omega)]
    by_cases hlt : i + k < l.length
    · have hwhite : WhiteAt l (i + k) := hrun.right.resolve_left hlt.ne
      rw [if_pos ⟨by omega, by omega, hwhite⟩]
    · rw [if_neg (by omega), hl (i + k) (by omega), List.getD_eq_default _ _ (by omega)]

/-- **The arguments are the words.**  Every line has its list of words, the maximal runs of
characters that are not whitespace.  If there are at most 15 of them, then `runcmd` looks for the
command with `argc` and `argv` such that `argc` is their number, `argv[k]` points to the `k`-th of
them, which is a string in memory then, and `argv[argc]` is null.  If there are more, it prints a
text and invokes no command.  In no case is a slot of `argv` written that does not exist. -/
theorem runcmd_splits (m : ByteMem) (buf : Nat) (line : CString) (hline : StringAt m buf line)
    (hfit : buf + line.strlen < 2 ^ 32) :
    ∃ ws, SplitsFrom (WhiteAt line.bytes) line.strlen 0 ws ∧
      (ws.length ≤ 15 → ∃ m' argv, runcmd m buf = .ok (m', lookupCmd m' ws.length argv) ∧
        argv.length = maxargs ∧ argv.getD ws.length 1 = 0 ∧
        ∀ k i n, ws[k]? = some (i, n) → argv.getD k 0 = buf + i ∧
          Spells m' (buf + i) ((line.bytes.drop i).take n)) ∧
      (15 < ws.length →
        ∃ m', runcmd m buf = .ok (m', .print "Too many arguments (max %d)\n" 16)) := by
  have hl := hline.spells
  have hfuel : line.bytes.length - 0 < loopFuel := line.length_lt
  obtain ⟨ws, hws, hfew, hmany⟩ := splitArgs_cases hl line.noNul hfit loopFuel 0 []
    (Nat.zero_le _) (.inl rfl) hfuel (by decide)
  rw [cutTo_zero, Nat.add_zero] at hfew hmany
  simp only [List.length_nil, Nat.zero_add, List.nil_append] at hfew hmany
  have hslots : slots [] = List.replicate maxargs 0 := rfl
  rw [hslots] at hfew hmany
  refine ⟨ws, hws, fun h => ?_, fun h => ?_⟩
  · have hlt : ws.length < maxargs := Nat.lt_succ_of_le h
    have hmap : (ws.map fun w => buf + w.1).length = ws.length := List.length_map _
    have hset := setArg_slots (ws.map fun w => buf + w.1) (by rw [hmap]; exact hlt) 0
    rw [hmap] at hset
    refine ⟨cutTo m buf line.bytes line.bytes.length,
      slots ((ws.map fun w => buf + w.1) ++ [0]), ?_, length_slots ?_, ?_, ?_⟩
    · rw [runcmd, hfew hlt]
      simp only [bind, Except.bind, hset]
    · rw [List.length_append, hmap]
      exact hlt
    · rw [slots, List.getD_append _ _ _ _ (by simp), List.getD_append_right _ _ _ _ hmap.le, hmap,
        Nat.sub_self]
      rfl
    · intro k i n hk
      obtain ⟨hlen, hget⟩ := List.getElem?_eq_some_iff.1 hk
      have hmem : (i, n) ∈ ws := List.mem_of_getElem? hk
      refine ⟨?_, spells_cutTo hl ((hws.mem_iff i n).1 hmem).2⟩
      rw [slots, List.getD_append _ _ _ _ (by simp; omega),
        List.getD_append _ _ _ _ (by rw [hmap]; exact hlen), List.getD_eq_getElem _ _
        (by rw [hmap]; exact hlen), List.getElem_map, hget]
  · obtain ⟨m', hm'⟩ := hmany h
    refine ⟨m', ?_⟩
    rw [runcmd, hm']
    rfl

/-- A memory with a line at 100, and zeros elsewhere. -/
def lineMem (line : CString) : ByteMem := fun x =>
  if 100 ≤ x then line.bytes.getD (x - 100) 0 else 0

theorem stringAt_lineMem (line : CString) : StringAt (lineMem line) 100 line where
  chars i _ := by rw [lineMem, if_pos (Nat.le_add_right 100 i), Nat.add_sub_cancel_left]
  nul := by
    rw [lineMem, if_pos (Nat.le_add_right _ _), Nat.add_sub_cancel_left]
    exact List.getD_eq_default _ _ (Nat.le_refl _)

/-- The line `" help  a\t"`. -/
def helpLine : CString := ⟨" help  a\t".toList.map byte, by decide +kernel, by decide +kernel⟩

/-- The line has two words, and `help` is called with them. -/
theorem runcmd_splits_help : ∃ ws m' argv, SplitsFrom (WhiteAt helpLine.bytes) 9 0 ws ∧
    ws.length = 2 ∧ runcmd (lineMem helpLine) 100 = .ok (m', .invoke .help 2 argv) := by
  have haction : (runcmd (lineMem helpLine) 100).map Prod.snd =
      .ok (.invoke .help 2 ([101, 107] ++ List.replicate 14 0)) := by
    decide +kernel
  obtain ⟨ws, hws, hfew, hmany⟩ := runcmd_splits (lineMem helpLine) 100 helpLine
    (stringAt_lineMem helpLine) (by decide +kernel)
  rcases Nat.lt_or_ge 15 ws.length with hlong | hshort
  · obtain ⟨m', hrun⟩ := hmany hlong
    rw [hrun] at haction
    cases haction
  · obtain ⟨m', argv, hrun, -⟩ := hfew hshort
    rw [hrun] at haction
    have hcmd := Except.ok.inj haction
    refine ⟨ws, m', _, hws, ?_, hrun.trans (congrArg (fun c => Except.ok (m', c)) hcmd)⟩
    rw [lookupCmd] at hcmd
    split at hcmd
    · cases hcmd
    · split at hcmd
      · exact (CmdAction.invoke.inj hcmd).2.1
      · cases hcmd

end JinxOS
