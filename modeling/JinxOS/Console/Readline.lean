import JinxOS.Klib.Format
import Mathlib.Data.List.Infix

/-!
# Line editing

`readline` of `console/console.c`, over the characters that `getc` returns one after the other; the
zeros that it returns while the buffer is empty are among them.  A store outside the 1024 bytes of
the line buffer is a fault.

The line that is meant (`editLine`) is a fold over the characters: those from a blank on are
appended as long as there is room, a backspace or DEL removes the last one, and on an empty line
does nothing.  The code tests for a backspace or DEL only together with `i > 0`.  On an empty line a
backspace then fails all the other tests too; but DEL, whose code is 127, passes for a character
from a blank on and is appended.

* `readlineLoop_shows` — the code keeps in the buffer the line that `typeLine` computes, and stays
  inside it;
* `typeLine_eq_iff` — that line is the one that is meant exactly if each DEL that came on an empty
  line was taken back by the characters after it (`DelsTakenBack`);
* `readline_line_iff` — **so `readline` returns the line that is meant exactly then**.
-/

namespace JinxOS

open Function (update update_of_ne update_self)
open List (length_dropLast length_append length_cons)

/-! ## The code -/

/-- `BUFLEN`. -/
def buflen : Nat := 1024

/-- The state of `readline`: the static buffer, `i`, and what has been put out. -/
structure LineState where
  buf : Nat → UInt8
  i : Nat
  echo : List UInt8

/-- How `readline` ends. -/
inductive LineResult
  /-- It returns null. -/
  | null (st : LineState)
  /-- It returns the buffer. -/
  | line (st : LineState)
  /-- It goes on to call `getc`. -/
  | waits (st : LineState)

/-- `buf[i] = c`. -/
def LineState.store (st : LineState) (c : UInt8) : Except Fault LineState :=
  if st.i < buflen then .ok { st with buf := update st.buf st.i c } else .error .outside

/-- `putc(c)`. -/
def LineState.putc (st : LineState) (c : UInt8) : LineState := { st with echo := st.echo ++ [c] }

/-- The code of DEL. -/
def del : UInt8 := 0x7F

/-- The code of a backspace. -/
def backspace : UInt8 := 0x08

/-- The loop of `readline`, for the characters that `getc` is going to return. -/
def readlineLoop (st : LineState) : List UInt8 → Except Fault LineResult
  | [] => .ok (.waits st)
  | c :: cs =>
    if signedChar c < 0 then .ok (.null st)
    else if (c = backspace ∨ c = del) ∧ st.i > 0 then
      readlineLoop { st.putc backspace with i := st.i - 1 } cs
    else if signedChar c ≥ chr ' ' ∧ st.i < buflen - 1 then do
      let st ← (st.putc c).store c
      readlineLoop { st with i := st.i + 1 } cs
    else if c = byte '\n' ∨ c = byte '\r' then do
      let st ← (st.putc (byte '\n')).store 0
      .ok (.line st)
    else readlineLoop st cs

/-- `readline`. -/
def readline (buf : Nat → UInt8) (cs : List UInt8) : Except Fault LineResult :=
  readlineLoop ⟨buf, 0, []⟩ cs

/-! ## Lines -/

/-- The line that is meant, after one more character. -/
def editChar (line : List UInt8) (c : UInt8) : List UInt8 :=
  if c = backspace ∨ c = del then line.dropLast
  else if byte ' ' ≤ c ∧ line.length < buflen - 1 then line ++ [c]
  else line

/-- **The line that is meant.** -/
def editLine (cs : List UInt8) : List UInt8 := cs.foldl editChar []

/-- The line in the buffer, after one more character. -/
def typeChar (line : List UInt8) (c : UInt8) : List UInt8 :=
  if (c = backspace ∨ c = del) ∧ line ≠ [] then line.dropLast
  else if byte ' ' ≤ c ∧ line.length < buflen - 1 then line ++ [c]
  else line

/-- The line in the buffer. -/
def typeLine (cs : List UInt8) : List UInt8 := cs.foldl typeChar []

/-- The buffer has the line, and the rest of the memory is as it was. -/
structure Shows (buf : Nat → UInt8) (line : List UInt8) (st : LineState) : Prop where
  i_eq : st.i = line.length
  length_lt : line.length < buflen
  chars : ∀ j, j < line.length → st.buf j = line.getD j 0
  frame : ∀ a, buflen ≤ a → st.buf a = buf a

variable {buf : Nat → UInt8} {line : List UInt8} {st : LineState}

theorem Shows.erase (h : Shows buf line st) :
    Shows buf line.dropLast { st.putc backspace with i := st.i - 1 } where
  i_eq := by
    rw [length_dropLast, ← h.i_eq]
  length_lt := by
    rw [length_dropLast]
    exact Nat.lt_of_le_of_lt (Nat.sub_le _ _) h.length_lt
  chars j hj := by
    rw [length_dropLast] at hj
    dsimp only [LineState.putc]
    rw [h.chars j (by omega), List.getD_eq_getElem _ _ (by omega), List.getD_eq_getElem _ _ (by
      rw [length_dropLast]; omega), List.getElem_dropLast]
  frame := h.frame

theorem Shows.append (h : Shows buf line st) (c : UInt8) (hroom : line.length < buflen - 1) :
    ∃ st', (st.putc c).store c = .ok st' ∧ Shows buf (line ++ [c]) { st' with i := st'.i + 1 } := by
  have hi := h.i_eq
  have hlen : (line ++ [c]).length = line.length + 1 := length_append
  have hstore : st.i < buflen := by omega
  refine ⟨_, if_pos hstore, ⟨?_, ?_, fun j hj => ?_, fun a ha => ?_⟩⟩
  · dsimp only [LineState.putc]
    rw [hlen, hi]
  · omega
  · dsimp only [LineState.putc]
    rcases Nat.lt_or_ge j line.length with hlt | hge
    · rw [update_of_ne (by omega), h.chars j hlt, List.getD_append _ _ _ _ hlt]
    · obtain rfl : j = line.length := by omega
      rw [hi, update_self, List.getD_append_right _ _ _ _ (Nat.le_refl _), Nat.sub_self]
      rfl
  · dsimp only [LineState.putc]
    rw [update_of_ne (by omega), h.frame a ha]

/-- A character that is neither negative nor a newline. -/
def Typed (c : UInt8) : Prop := c < 128 ∧ c ≠ byte '\n' ∧ c ≠ byte '\r'

instance instDecidableTyped (c : UInt8) : Decidable (Typed c) :=
  inferInstanceAs (Decidable (c < 128 ∧ c ≠ byte '\n' ∧ c ≠ byte '\r'))

theorem signedChar_of_lt {c : UInt8} (h : c < 128) : signedChar c = c.toNat := if_pos h

theorem blank_le_iff {c : UInt8} (h : c < 128) : signedChar c ≥ chr ' ' ↔ byte ' ' ≤ c := by
  rw [signedChar_of_lt h, UInt8.le_iff_toNat_le, ge_iff_le, chr]
  exact Int.ofNat_le

/-- **The code keeps the line in the buffer**, for characters up to a newline. -/
theorem readlineLoop_shows {nl : UInt8} (hnl : nl = byte '\n' ∨ nl = byte '\r')
    (rest : List UInt8) :
    ∀ (cs : List UInt8) {line : List UInt8} {st : LineState}, (∀ c ∈ cs, Typed c) →
      Shows buf line st → ∃ st', readlineLoop st (cs ++ nl :: rest) = .ok (.line st') ∧
        Shows buf (cs.foldl typeChar line) st' ∧ st'.buf (cs.foldl typeChar line).length = 0 := by
  intro cs
  induction cs with
  | nil =>
    intro line st _ h
    have hi := h.i_eq
    have hlen := h.length_lt
    have hstore : (st.putc (byte '\n')).i < buflen := by
      show st.i < buflen
      omega
    have hnot : ¬ signedChar nl < 0 ∧ ¬ ((nl = backspace ∨ nl = del) ∧ st.i > 0) ∧
        ¬ (signedChar nl ≥ chr ' ' ∧ st.i < buflen - 1) := by
      rcases hnl with rfl | rfl <;>
        exact ⟨by decide, fun h => absurd h.1 (by decide), fun h => absurd h.1 (by decide)⟩
    refine ⟨{ st.putc (byte '\n') with buf := update st.buf st.i 0 }, ?_,
      ⟨hi, hlen, fun j hj => ?_, fun a ha => ?_⟩, ?_⟩
    · rw [List.nil_append, readlineLoop, if_neg hnot.1, if_neg hnot.2.1, if_neg hnot.2.2,
        if_pos hnl, LineState.store, if_pos hstore]
      rfl
    · rw [List.foldl_nil] at hj ⊢
      dsimp only [LineState.putc]
      rw [update_of_ne (by omega), h.chars j hj]
    · dsimp only [LineState.putc]
      rw [update_of_ne (by omega), h.frame a ha]
    · rw [List.foldl_nil, ← hi]
      exact update_self ..
  | cons c cs ih =>
    intro line st htyped h
    obtain ⟨hlt, hn, hr⟩ := htyped c List.mem_cons_self
    have hrest : ∀ c ∈ cs, Typed c := fun c hc => htyped c (List.mem_cons_of_mem _ hc)
    have hnonneg : ¬ signedChar c < 0 := by
      rw [signedChar_of_lt hlt]
      omega
    have hi : st.i > 0 ↔ line ≠ [] := by
      rw [h.i_eq]
      exact List.length_pos_iff
    have hroom : st.i < buflen - 1 ↔ line.length < buflen - 1 := by rw [h.i_eq]
    rw [List.cons_append, readlineLoop, if_neg hnonneg, List.foldl_cons, typeChar]
    simp only [hi, blank_le_iff hlt, hroom]
    by_cases herase : (c = backspace ∨ c = del) ∧ line ≠ []
    · rw [if_pos herase, if_pos herase]
      exact ih hrest h.erase
    · rw [if_neg herase, if_neg herase]
      by_cases happend : byte ' ' ≤ c ∧ line.length < buflen - 1
      · obtain ⟨st', hstore, hshows⟩ := h.append c happend.2
        rw [if_pos happend, if_pos happend, hstore]
        exact ih hrest hshows
      · rw [if_neg happend, if_neg happend, if_neg (not_or.2 ⟨hn, hr⟩)]
        exact ih hrest h

/-! ## The two lines -/

theorem editLine_concat (p : List UInt8) (c : UInt8) :
    editLine (p ++ [c]) = editChar (editLine p) c := by
  rw [editLine, List.foldl_append]
  rfl

theorem del_notMem_editLine (cs : List UInt8) : del ∉ editLine cs := by
  induction cs using List.reverseRecOn with
  | nil => exact List.not_mem_nil
  | append_singleton p c ih =>
    rw [editLine_concat, editChar]
    split
    · exact fun hmem => ih (List.mem_of_mem_dropLast hmem)
    · rename_i hne
      split
      · rw [List.mem_append, List.mem_singleton]
        rintro (hmem | hdel)
        · exact ih hmem
        · exact hne (.inr hdel.symm)
      · exact ih

theorem typeChar_eq_editChar {line : List UInt8} {c : UInt8} (h : c = del → line ≠ []) :
    typeChar line c = editChar line c := by
  rw [typeChar, editChar]
  by_cases herase : c = backspace ∨ c = del
  · by_cases hne : line = []
    · obtain rfl : c = backspace := herase.resolve_right fun hdel => h hdel hne
      rw [hne, if_neg (fun h => h.2 rfl), if_neg (fun h => absurd h.1 (by decide)),
        if_pos (.inl rfl)]
      rfl
    · rw [if_pos ⟨herase, hne⟩, if_pos herase]
  · rw [if_neg (fun h => herase h.1), if_neg herase]

/-- DEL never comes on an empty line. -/
def DelErases (cs : List UInt8) : Prop := ∀ p, p ++ [del] <+: cs → editLine p ≠ []

/-- **Each DEL that comes on an empty line is taken back.**  The code takes such a DEL for a
character.  The characters after it take it back if they would leave nothing of a blank that had
been typed in its place. -/
inductive DelsTakenBack : List UInt8 → Prop
  /-- There is no such DEL. -/
  | clean {cs : List UInt8} (h : DelErases cs) : DelsTakenBack cs
  /-- The first one comes after `p`, and `q` takes it back. -/
  | back {p q cs : List UInt8} (hp : DelErases p) (hempty : editLine p = [])
      (hq : DelErases (byte ' ' :: q)) (hback : editLine (byte ' ' :: q) = [])
      (hrest : DelsTakenBack cs) : DelsTakenBack (p ++ del :: (q ++ cs))

/-- As long as DEL does not come on an empty line, the lines stay the same. -/
theorem foldl_typeChar_eq {cs line : List UInt8}
    (hclean : ∀ p, p ++ [del] <+: cs → p.foldl editChar line ≠ []) :
    cs.foldl typeChar line = cs.foldl editChar line := by
  induction cs using List.reverseRecOn with
  | nil => rfl
  | append_singleton p c ih =>
    rw [List.foldl_concat, List.foldl_concat,
      ih fun q hq => hclean q (hq.trans (List.prefix_append p [c]))]
    refine typeChar_eq_editChar fun hc => hclean p ?_
    rw [hc]

theorem length_editChar_le {l l' : List UInt8} (h : l.length ≤ l'.length) (c : UInt8) :
    (editChar l c).length ≤ (editChar l' c).length := by
  rw [editChar, editChar]
  split
  · rw [length_dropLast, length_dropLast]
    omega
  · split_ifs <;> grind

theorem foldl_editChar_nil {cs l l' : List UInt8} (hnil : cs.foldl editChar l' = [])
    (h : l.length ≤ l'.length) : cs.foldl editChar l = [] := by
  have hle : (cs.foldl editChar l).length ≤ (cs.foldl editChar l').length :=
    List.foldl_rel (r := fun l l' : List UInt8 => l.length ≤ l'.length) h fun c _ _ _ h =>
      length_editChar_le h c
  rw [hnil] at hle
  exact List.eq_nil_of_length_eq_zero (Nat.le_zero.1 hle)

/-- What a blank leaves behind is what a DEL does that is taken for a character. -/
theorem foldl_blank_iff (cs : List UInt8) :
    cs.foldl editChar [byte ' '] = [] ↔ cs.foldl editChar [del] = [] :=
  ⟨fun h => foldl_editChar_nil h (Nat.le_refl 1), fun h => foldl_editChar_nil h (Nat.le_refl 1)⟩

theorem delErases_blank_iff {q : List UInt8} : DelErases (byte ' ' :: q) ↔
    ∀ p, p ++ [del] <+: q → p.foldl editChar [del] ≠ [] := by
  constructor
  · intro h p hp hnil
    exact h (byte ' ' :: p) (List.cons_prefix_cons.2 ⟨rfl, hp⟩) ((foldl_blank_iff p).2 hnil)
  · intro h p hp hnil
    cases p with
    | nil => exact absurd (List.cons_prefix_cons.1 hp).1 (by decide)
    | cons c p =>
      obtain ⟨rfl, hpre⟩ := List.cons_prefix_cons.1 hp
      exact h p hpre ((foldl_blank_iff p).1 hnil)

theorem typeLine_append_del {p : List UInt8} (hp : DelErases p) (hempty : editLine p = [])
    (t : List UInt8) : typeLine (p ++ del :: t) = t.foldl typeChar [del] := by
  have htyped : typeLine p = [] := (foldl_typeChar_eq hp).trans hempty
  rw [typeLine, List.foldl_append, ← typeLine, htyped]
  rfl

/-- The lines when a DEL that came on an empty line has been taken back. -/
theorem lines_of_back {p q : List UInt8} (hp : DelErases p) (hempty : editLine p = [])
    (hq : DelErases (byte ' ' :: q)) (hback : editLine (byte ' ' :: q) = []) (cs : List UInt8) :
    typeLine (p ++ del :: (q ++ cs)) = typeLine cs ∧
      editLine (p ++ del :: (q ++ cs)) = editLine cs := by
  have hgone : q.foldl editChar [del] = [] := (foldl_blank_iff q).1 hback
  constructor
  · rw [typeLine_append_del hp hempty, List.foldl_append,
      foldl_typeChar_eq (delErases_blank_iff.1 hq), hgone, typeLine]
  · have hedit : q.foldl editChar [] = [] := foldl_editChar_nil hgone (Nat.zero_le 1)
    rw [editLine, List.foldl_append, ← editLine, hempty, List.foldl_cons, List.foldl_append,
      show editChar [] del = [] from rfl, hedit, editLine]

theorem DelsTakenBack.line_eq {cs : List UInt8} (h : DelsTakenBack cs) :
    typeLine cs = editLine cs := by
  induction h with
  | clean h => exact foldl_typeChar_eq h
  | back hp hempty hq hback _ ih =>
    obtain ⟨htype, hedit⟩ := lines_of_back hp hempty hq hback _
    rw [htype, hedit, ih]

theorem exists_first_del {cs : List UInt8} (h : ¬ DelErases cs) :
    ∃ p t, cs = p ++ del :: t ∧ DelErases p ∧ editLine p = [] := by
  induction cs using List.reverseRecOn with
  | nil => exact absurd (fun p hp => by simp at hp) h
  | append_singleton cs c ih =>
    by_cases hcs : DelErases cs
    · rw [DelErases] at h
      push Not at h
      obtain ⟨p, hp, hnil⟩ := h
      rcases List.prefix_concat_iff.1 hp with heq | hpre
      · obtain ⟨rfl, hc⟩ := List.append_inj' heq rfl
        exact ⟨p, [], heq.symm, hcs, hnil⟩
      · exact absurd hnil (hcs p hpre)
    · obtain ⟨p, t, rfl, hp, hnil⟩ := ih hcs
      exact ⟨p, t ++ [c], by simp, hp, hnil⟩

theorem editChar_cons (x : UInt8) (u : List UInt8) (c : UInt8) :
    editChar (x :: u) c = [] ∨ ∃ u', editChar (x :: u) c = x :: u' := by
  rw [editChar]
  split
  · cases u with
    | nil => exact .inl rfl
    | cons y u => exact .inr ⟨_, rfl⟩
  · split
    · exact .inr ⟨_, rfl⟩
    · exact .inr ⟨_, rfl⟩

theorem del_stays_or_back (t : List UInt8) :
    (∀ p, p <+: t → ∃ u, p.foldl editChar [del] = del :: u) ∨
      ∃ q cs, t = q ++ cs ∧ DelErases (byte ' ' :: q) ∧ editLine (byte ' ' :: q) = [] := by
  induction t using List.reverseRecOn with
  | nil => exact .inl fun p hp => ⟨[], by rw [List.prefix_nil.1 hp]; rfl⟩
  | append_singleton t c ih =>
    rcases ih with hstays | ⟨q, cs, rfl, hq, hback⟩
    · obtain ⟨u, hu⟩ := hstays t (List.prefix_refl t)
      rcases editChar_cons del u c with hnil | ⟨u', hu'⟩
      · refine .inr ⟨t ++ [c], [], (List.append_nil _).symm, delErases_blank_iff.2 fun p hp => ?_,
          (foldl_blank_iff _).2 (by rw [List.foldl_concat, hu, hnil])⟩
        obtain ⟨v, hv⟩ := hstays p (List.prefix_of_prefix_length_le
          ((List.prefix_append p [del]).trans hp) (List.prefix_append t [c]) (by
            have := hp.length_le
            simp only [length_append, List.length_singleton] at this
            omega))
        rw [hv]
        exact List.cons_ne_nil _ _
      · refine .inl fun p hp => ?_
        rcases List.prefix_concat_iff.1 hp with rfl | hp
        · exact ⟨u', by rw [List.foldl_concat, hu, hu']⟩
        · exact hstays p hp
    · exact .inr ⟨q, cs ++ [c], List.append_assoc _ _ _, hq, hback⟩

theorem del_mem_typeLine {p t : List UInt8} (hp : DelErases p) (hempty : editLine p = [])
    (hstays : ∀ r, r <+: t → ∃ u, r.foldl editChar [del] = del :: u) :
    del ∈ typeLine (p ++ del :: t) := by
  have hsame : t.foldl typeChar [del] = t.foldl editChar [del] :=
    foldl_typeChar_eq fun r hr => by
      obtain ⟨v, hv⟩ := hstays r ((List.prefix_append r [del]).trans hr)
      rw [hv]
      exact List.cons_ne_nil _ _
  obtain ⟨u, hu⟩ := hstays t (List.prefix_refl t)
  rw [typeLine_append_del hp hempty, hsame, hu]
  exact List.mem_cons_self

/-- **The line in the buffer is the one that is meant** exactly if each DEL that came on an empty
line was taken back. -/
theorem typeLine_eq_iff (cs : List UInt8) : typeLine cs = editLine cs ↔ DelsTakenBack cs := by
  refine ⟨fun heq => ?_, DelsTakenBack.line_eq⟩
  induction hn : cs.length using Nat.strongRecOn generalizing cs with
  | _ n ih =>
    by_cases hclean : DelErases cs
    · exact .clean hclean
    · obtain ⟨p, t, rfl, hp, hempty⟩ := exists_first_del hclean
      rcases del_stays_or_back t with hstays | ⟨q, cs, rfl, hq, hback⟩
      · -- a DEL is still there, which is never meant
        exact absurd (heq ▸ del_mem_typeLine hp hempty hstays)
          (del_notMem_editLine (p ++ del :: t))
      · obtain ⟨htype, hedit⟩ := lines_of_back hp hempty hq hback cs
        refine .back hp hempty hq hback (ih cs.length ?_ cs ?_ rfl)
        · rw [← hn]
          simp only [length_append, length_cons]
          omega
        · rw [← htype, ← hedit, heq]

/-- **`readline`.**  For every sequence of characters that are not negative, up to the first
newline: `readline` returns, it has stored nothing outside its buffer, and what it returns is a line
of less than 1024 characters with the byte that ends it.  This is the line that is meant exactly if
each DEL that came on an empty line was taken back. -/
theorem readline_line_iff (buf : Nat → UInt8) {cs : List UInt8} {nl : UInt8} (rest : List UInt8)
    (hcs : ∀ c ∈ cs, Typed c) (hnl : nl = byte '\n' ∨ nl = byte '\r') :
    ∃ st line, readline buf (cs ++ nl :: rest) = .ok (.line st) ∧ Shows buf line st ∧
      st.buf line.length = 0 ∧ (line = editLine cs ↔ DelsTakenBack cs) := by
  have hinit : Shows buf [] ⟨buf, 0, []⟩ :=
    ⟨rfl, by decide, fun j hj => absurd hj (Nat.not_lt_zero j), fun _ _ => rfl⟩
  obtain ⟨st, hret, hshows, hnul⟩ := readlineLoop_shows hnl rest cs hcs hinit
  exact ⟨st, typeLine cs, hret, hshows, hnul, typeLine_eq_iff cs⟩

/-- The characters DEL, backspace, `a`, `b`, backspace, `c` and a newline. -/
theorem readline_line_iff_ac : ∃ st,
    readline (fun _ => 0)
        ([del, backspace, byte 'a', byte 'b', backspace, byte 'c'] ++ byte '\n' :: []) =
      .ok (.line st) ∧ st.buf 0 = byte 'a' ∧ st.buf 1 = byte 'c' ∧ st.buf 2 = 0 := by
  have hclean : ∀ {cs}, del ∉ cs → DelErases cs :=
    fun hdel p hp => absurd (hp.subset (List.mem_append_right p List.mem_cons_self)) hdel
  have hback : DelsTakenBack [del, backspace, byte 'a', byte 'b', backspace, byte 'c'] :=
    .back (p := []) (q := [backspace]) (hclean (by decide)) rfl (hclean (by decide)) (by decide)
      (.clean (hclean (by decide)))
  obtain ⟨st, line, hret, hshows, hnul, hline⟩ := readline_line_iff (fun _ => 0) []
    (show ∀ c ∈ [del, backspace, byte 'a', byte 'b', backspace, byte 'c'], Typed c by
      decide +kernel) (.inl rfl)
  have hmeant : editLine [del, backspace, byte 'a', byte 'b', backspace, byte 'c'] =
      [byte 'a', byte 'c'] := by decide
  obtain rfl := (hline.2 hback).trans hmeant
  exact ⟨st, hret, hshows.chars 0 (by decide), hshows.chars 1 (by decide), hnul⟩

/-- **DEL on an empty line** is the first character of the line. -/
theorem not_edited_del : ∃ st, readline (fun _ => 0) [del, byte '\n'] = .ok (.line st) ∧
    st.buf 0 = del ∧ st.buf 1 = 0 ∧ editLine [del] = [] := by
  refine ⟨_, rfl, ?_, ?_, ?_⟩ <;> decide

end JinxOS
