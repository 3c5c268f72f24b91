import JinxOS.Klib.ArrayBytes
import JinxOS.Lib.Refinement

/-!
# Dynamic arrays are sequences

Any sequence of calls on an array from `array_create` that return.  The array stands for a sequence,
in which the elements that `array_setsize` has added and nobody has stored are not known.
`array_refines` says that the calls return what they should, and what the array is afterwards;
`karray_allows` that the arrays which are given by their values meet the same specification.

A call need not return: the loop in `array_setsize` that doubles `newmax` does not end if the size
is larger than the largest power of two that a word can hold.  It is the only case, as
`arraySetsize_ends_iff` says.
-/

namespace JinxOS

open Refinement

/-! ## Calls -/

/-- A call.  Values are words. -/
inductive ArrayOp
  /-- `array_add(a, val, &index)`. -/
  | add (heap : HeapCall) (val : Fin (2 ^ 32))
  /-- `array_set(a, index, val)`. -/
  | set (index : Nat) (val : Fin (2 ^ 32))
  /-- `array_get(a, index)`. -/
  | get (index : Nat)
  /-- `array_setsize(a, num)`. -/
  | setsize (heap : HeapCall) (num : Nat)
  /-- `array_remove(a, index)`. -/
  | remove (index : Nat)

/-- What a call returns. -/
inductive ArrayRes
  /-- Nothing. -/
  | void
  /-- An error number, or 0. -/
  | errno (e : Nat)
  /-- 0, with the index stored. -/
  | index (i : Nat)
  /-- A value. -/
  | value (x : Nat)
  deriving DecidableEq

/-- What `array_add` returns. -/
def addRes (ret index : Nat) : ArrayRes := if ret = 0 then .index index else .errno ret

/-- A call: what it returns, and the array after it. -/
def arrayCall (a : ArrayMem) : ArrayOp → Except Fault (ArrayRes × ArrayMem)
  | .add heap val => do
    let (ret, index, a) ← a.arrayAdd heap val
    .ok (addRes ret index, a)
  | .set index val => do
    let a ← a.arraySet index val
    .ok (.void, a)
  | .get index => do
    let x ← a.arrayGet index
    .ok (.value x, a)
  | .setsize heap num => do
    let (ret, a) ← a.arraySetsize heap num
    .ok (.errno ret, a)
  | .remove index => do
    let a ← a.arrayRemove index
    .ok (.void, a)

/-! ## Sequences -/

/-- What an array stands for. -/
structure ArrayVal where
  /-- The elements; `none` is one that is not known. -/
  elems : List (Option Nat)
  /-- How many there is room for. -/
  max : Nat

/-- What a call returns, and what it does to the sequence. -/
def ArrayPost (a : ArrayVal) : ArrayOp → ArrayRes → ArrayVal → Prop
  | .add _ val, r, a' =>
    (r = .index a.elems.length ∧ a'.elems = a.elems ++ [some val.1]) ∨
      (r = .errno enomem ∧ a' = a)
  | .set index val, r, a' =>
    index < a.elems.length ∧ r = .void ∧ a' = { a with elems := a.elems.set index (some val.1) }
  | .get index, r, a' =>
    index < a.elems.length ∧ a' = a ∧
      ∃ x, r = .value x ∧ ∀ y, a.elems[index]? = some (some y) → x = y
  | .setsize _ num, r, a' =>
    (r = .errno 0 ∧ a'.elems = resized a.elems num) ∨
      (r = .errno enomem ∧ a' = a)
  | .remove index, r, a' =>
    index < a.elems.length ∧ r = .void ∧ a' = { a with elems := a.elems.eraseIdx index }

/-- An array represents a sequence. -/
def ArrayStands (s : ArrayMem) (a : ArrayVal) : Prop := ArrayRep s a.elems ∧ s.max = a.max

section
variable {s s' : ArrayMem} {a : ArrayVal} {r : ArrayRes}

theorem index_of_assert {α : Type} {exp : String} {index num : Nat} {f : Unit → Except Fault α}
    {y : α} (h : (assert exp (decide (index < num)) >>= f) = .ok y) : index < num := by
  obtain ⟨_, hassert, -⟩ := of_bind h
  exact of_decide_eq_true (assert_ok.1 hassert)

/-- **A call that returns does what it should** to the sequence. -/
theorem ArrayStands.call (h : ArrayStands s a) (op : ArrayOp)
    (hrun : arrayCall s op = .ok (r, s')) : ∃ a', ArrayPost a op r a' ∧ ArrayStands s' a' := by
  obtain ⟨hr, hmax⟩ := h
  cases op with
  | add heap val =>
    obtain ⟨⟨ret, index, s1⟩, hadd, hrun⟩ := of_bind hrun
    cases hrun
    obtain ⟨rfl, ⟨rfl, rfl⟩ | ⟨rfl, hr1⟩⟩ := hr.add val.2 hadd
    · exact ⟨a, .inr ⟨rfl, rfl⟩, hr, hmax⟩
    · exact ⟨⟨a.elems ++ [some val.1], s'.max⟩, .inl ⟨rfl, rfl⟩, hr1, rfl⟩
  | set index val =>
    obtain ⟨s1, hset, hrun⟩ := of_bind hrun
    cases hrun
    have hlt : index < a.elems.length := hr.num ▸ index_of_assert hset
    rw [hr.set_eq hlt] at hset
    cases hset
    exact ⟨_, ⟨hlt, rfl, rfl⟩, hr.store val.2 index, hmax⟩
  | get index =>
    obtain ⟨x, hget, hrun⟩ := of_bind hrun
    cases hrun
    have hlt : index < a.elems.length := hr.num ▸ index_of_assert hget
    rw [hr.get_eq hlt] at hget
    cases hget
    exact ⟨a, ⟨hlt, rfl, _, rfl, fun y hy => hr.elems index y hy⟩, hr, hmax⟩
  | setsize heap num =>
    obtain ⟨⟨ret, s1⟩, hset, hrun⟩ := of_bind hrun
    cases hrun
    rcases hr.setsize hset with ⟨rfl, rfl⟩ | ⟨rfl, hr1⟩
    · exact ⟨a, .inr ⟨rfl, rfl⟩, hr, hmax⟩
    · exact ⟨⟨resized a.elems num, s'.max⟩, .inl ⟨rfl, rfl⟩, hr1, rfl⟩
  | remove index =>
    obtain ⟨s1, hremove, hrun⟩ := of_bind hrun
    cases hrun
    obtain ⟨_, -, hremove'⟩ := of_bind hremove
    have hlt : index < a.elems.length := hr.num ▸ index_of_assert hremove'
    obtain ⟨s2, hremove2, hr2, hmax2⟩ := hr.remove hlt
    cases hremove2.symm.trans hremove
    exact ⟨_, ⟨hlt, rfl, rfl⟩, hr2, hmax2.trans hmax⟩

theorem ArrayStands.enomem (h : ArrayStands s a) {op : ArrayOp}
    (hrun : arrayCall s op = .ok (.errno enomem, s')) : s' = s := by
  obtain ⟨hr, -⟩ := h
  cases op with
  | add heap val =>
    obtain ⟨⟨ret, index, s1⟩, hadd, hrun⟩ := of_bind hrun
    obtain ⟨hret, rfl⟩ := Prod.mk.inj (Except.ok.inj hrun)
    obtain ⟨rfl, ⟨-, rfl⟩ | ⟨rfl, -⟩⟩ := hr.add val.2 hadd
    · rfl
    · cases hret
  | set index val | remove index =>
    obtain ⟨s1, -, hrun⟩ := of_bind hrun
    cases hrun
  | get index =>
    obtain ⟨x, -, hrun⟩ := of_bind hrun
    cases hrun
  | setsize heap num =>
    obtain ⟨⟨ret, s1⟩, hset, hrun⟩ := of_bind hrun
    obtain ⟨hret, rfl⟩ := Prod.mk.inj (Except.ok.inj hrun)
    rcases hr.setsize hset with ⟨-, rfl⟩ | ⟨rfl, -⟩
    · rfl
    · cases hret

end

/-- What is known of an array that stands for a sequence. -/
structure ArraySpec (s : ArrayMem) (a : ArrayVal) : Prop where
  /-- `num` is the length. -/
  num : s.num = a.elems.length
  /-- `max` is the room. -/
  max : s.max = a.max
  /-- There is room. -/
  num_le : s.num ≤ s.max
  /-- `array_get` returns an element that is known. -/
  get : ∀ i x, a.elems[i]? = some (some x) → s.arrayGet i = .ok x
  /-- A call that returns `ENOMEM` changes nothing. -/
  enomem : ∀ op s', arrayCall s op = .ok (.errno enomem, s') → s' = s

theorem arrayRun_stands {m : ByteMem} {ops : List ArrayOp} {rs : List ArrayRes} {s : ArrayMem}
    (hrun : runCalls arrayCall (.arrayCreate m) ops = .ok (rs, s)) :
    ∃ a, Allows ArrayPost ⟨[], 0⟩ ops rs a ∧ ArrayStands s a :=
  runCalls_allows (R := ArrayStands) (fun _ _ op _ _ h hcall => h.call op hcall)
    ⟨.create m, rfl⟩ hrun

/-- **Dynamic arrays are sequences.**  The results of any sequence of calls that return are allowed,
and the array has the elements that they lead to. -/
theorem array_refines {m : ByteMem} {ops : List ArrayOp} {rs : List ArrayRes} {s : ArrayMem}
    (hrun : runCalls arrayCall (.arrayCreate m) ops = .ok (rs, s)) :
    ∃ a, Allows ArrayPost ⟨[], 0⟩ ops rs a ∧ ArraySpec s a := by
  obtain ⟨a, hallows, hr⟩ := arrayRun_stands hrun
  refine ⟨a, hallows, hr.1.num, hr.2, hr.1.num_le, fun i x hx => ?_, fun op s' => hr.enomem⟩
  rw [hr.1.get_eq (lt_of_known hx), hr.1.elems i x hx]

/-- A heap that returns the given block. -/
def heapAt (ptr : Nat) : HeapCall := ⟨ptr, fun _ => 0⟩

/-- Five values, for the last of which the block is moved; the second one is taken out, the third
one is changed, and the array is made larger. -/
def fiveValues : List ArrayOp :=
  [.add (heapAt 4096) 10, .add (heapAt 0) 20, .add (heapAt 0) 30, .add (heapAt 0) 40,
    .add (heapAt 8192) 50, .remove 1, .set 2 60, .setsize (heapAt 0) 7, .get 2,
    .setsize (heapAt 0) 9, .setsize (heapAt 0) 2, .get 1]

/-- What the calls of `fiveValues` return, and the array after them. -/
def fiveResults : List ArrayRes × ArrayMem :=
  (runCalls arrayCall (.arrayCreate fun _ => 0) fiveValues).okD ([], .arrayCreate fun _ => 0)

theorem fiveResults_eq :
    runCalls arrayCall (.arrayCreate fun _ => 0) fiveValues = .ok (fiveResults.1, fiveResults.2) :=
  Except.eq_ok_okD (by decide +kernel) ([], .arrayCreate fun _ => 0)

theorem array_refines_five :
    fiveResults.1 = [.index 0, .index 1, .index 2, .index 3, .index 4, .void,
      .void, .errno 0, .value 60, .errno enomem, .errno 0, .value 30] ∧
    ∃ a, Allows ArrayPost ⟨[], 0⟩ fiveValues fiveResults.1 a ∧ ArraySpec fiveResults.2 a :=
  ⟨by decide +kernel, array_refines fiveResults_eq⟩

/-! ## When `array_setsize` returns -/

/-- `array_setsize` comes to an end: the loop does, with room for `num` elements, and with a number
of bytes that has not wrapped around if `kmalloc` returns a block for it. -/
def SetsizeEnds (s : ArrayMem) (num : Nat) : Prop :=
  (∀ heap, s.arraySetsize heap num ≠ .error .diverges) ∧
  (s.max < num → ∃ fuel newmax, newMax num fuel s.max = .ok newmax ∧ num ≤ newmax ∧
    (Word.mul newmax 4 ≠ 0 → Word.mul newmax 4 = 4 * newmax))

theorem ArrayMem.kmalloc_ends (s : ArrayMem) (heap : HeapCall) (bytes : Nat) :
    s.kmalloc heap bytes ≠ .error .diverges := by
  rw [ArrayMem.kmalloc]
  split
  · exact fun h => by cases h
  · split <;> exact fun h => by cases h

section
variable {s : ArrayMem} {xs : List (Option Nat)} (h : ArrayRep s xs) {num : Nat}
include h

theorem ArrayRep.setsizeEnds (hnum : num ≤ 2 ^ 31) : SetsizeEnds s num := by
  obtain ⟨m, hnew, hpow, hle, -⟩ := newMax_ends hnum h.pow (show 31 ≤ loopFuel by decide)
  refine ⟨fun heap => ?_, fun _ => ⟨loopFuel, m, hnew, hle, fun hbytes => (hpow.bytes hbytes).1⟩⟩
  rw [ArrayMem.arraySetsize, hnew]
  split
  · refine Except.bind_ne_error (fun h => by cases h) fun m' _ => ?_
    refine Except.bind_ne_error (s.kmalloc_ends heap _) fun r _ => ?_
    dsimp only
    split <;> exact fun h => by cases h
  · exact fun h => by cases h

theorem ArrayRep.not_setsizeEnds (hnum : 2 ^ 31 < num) : ¬ SetsizeEnds s num := by
  intro hends
  obtain ⟨fuel, m, hnew, -⟩ := hends.2 (lt_of_le_of_lt h.le (by omega))
  rw [newMax_diverges hnum h.pow] at hnew
  cases hnew

end

/-- **`array_setsize` comes to an end exactly if the size is at most `2 ^ 31`**, on any array that
calls lead to. -/
theorem arraySetsize_ends_iff {m : ByteMem} {ops : List ArrayOp} {rs : List ArrayRes} {s : ArrayMem}
    (hrun : runCalls arrayCall (.arrayCreate m) ops = .ok (rs, s)) (num : Nat) :
    SetsizeEnds s num ↔ num ≤ 2 ^ 31 := by
  obtain ⟨a, -, hr, -⟩ := arrayRun_stands hrun
  constructor
  · intro hends
    by_contra hnum
    exact hr.not_setsizeEnds (Nat.not_le.1 hnum) hends
  · exact hr.setsizeEnds

theorem arraySetsize_ends_iff_five : SetsizeEnds fiveResults.2 1000 :=
  (arraySetsize_ends_iff fiveResults_eq 1000).2 (by decide)

theorem not_setsizeEnds_empty : ¬ SetsizeEnds (.arrayCreate fun _ => 0) (2 ^ 31 + 1) :=
  (ArrayRep.create _).not_setsizeEnds (by decide)

/-! ## Arrays that are given by their values -/

/-- A call on an array that is given by its values. -/
def karrayCall (k : KArray Nat) : ArrayOp → Except Fault (ArrayRes × KArray Nat)
  | .add _ val => do
    let (ret, index, k) ← arrayAdd k val.1
    .ok (addRes ret index, k)
  | .set index val => do
    let k ← arraySet k index val.1
    .ok (.void, k)
  | .get index => do
    let x ← arrayGet k index
    .ok (.value x, k)
  | .setsize _ num => do
    let (ret, k) ← arraySetsize k num
    .ok (.errno ret, k)
  | .remove index => do
    let k ← arrayRemove k index
    .ok (.void, k)

/-- An array that is given by its values represents a sequence. -/
structure KArrayStands (k : KArray Nat) (a : ArrayVal) : Prop where
  wf : k.Wf
  max : k.max = a.max
  num : k.num = a.elems.length
  elems : ∀ (i x : Nat), a.elems[i]? = some (some x) → k.elems[i]? = some x

section
variable {k k' : KArray Nat} {a : ArrayVal} {r : ArrayRes}

theorem KArrayStands.get?_of_lt (h : KArrayStands k a) {i : Nat} (hi : i < k.num) :
    ∃ x, k.elems[i]? = some x :=
  ⟨_, List.getElem?_eq_getElem (h.wf.length_elems.symm ▸ hi)⟩

theorem KArrayStands.set (h : KArrayStands k a) (i x : Nat) :
    KArrayStands { k with v := k.v.set i x } { a with elems := a.elems.set i (some x) } := by
  refine ⟨h.wf.set i x, h.max, h.num.trans (List.length_set).symm, fun j y hy => ?_⟩
  rw [KArray.elems_set]
  have hj := lt_of_known hy
  rw [List.length_set] at hj
  by_cases hij : i = j
  · subst hij
    rw [List.getElem?_set_self hj] at hy
    cases hy
    exact List.getElem?_set_self (by rwa [h.wf.length_elems, h.num])
  · rw [List.getElem?_set_ne hij] at hy ⊢
    exact h.elems j y hy

/-- **A call that returns does what it should** to the sequence. -/
theorem KArrayStands.call (h : KArrayStands k a) (op : ArrayOp)
    (hrun : karrayCall k op = .ok (r, k')) : ∃ a', ArrayPost a op r a' ∧ KArrayStands k' a' := by
  have hlen := h.wf.length_elems
  have hnum := h.num
  cases op with
  | add heap val =>
    obtain ⟨⟨ret, index, k1⟩, hadd, hrun⟩ := of_bind hrun
    obtain ⟨rfl, rfl⟩ := Prod.mk.inj (Except.ok.inj hrun)
    rcases arrayAdd_cases h.wf val.1 with ⟨-, b, hadd', hb, helems⟩ | ⟨-, hadd'⟩
    · cases hadd'.symm.trans hadd
      refine ⟨⟨a.elems ++ [some val.1], k1.max⟩,
        .inl ⟨by rw [addRes, if_pos rfl, hnum], rfl⟩, hb, rfl, ?_, fun i x hx => ?_⟩
      · rw [← hb.length_elems, helems, List.length_append, List.length_append, hlen, hnum]
        rfl
      · have hlen' : k.elems.length = a.elems.length := hlen.trans hnum
        rw [helems]
        by_cases hi : i < a.elems.length
        · rw [List.getElem?_append_left hi] at hx
          rw [List.getElem?_append_left (hlen'.symm ▸ hi)]
          exact h.elems i x hx
        · rw [List.getElem?_append_right (Nat.not_lt.1 hi)] at hx
          rw [List.getElem?_append_right (hlen'.symm ▸ Nat.not_lt.1 hi), hlen']
          cases hlast : i - a.elems.length with
          | zero =>
            rw [hlast] at hx
            exact Option.some.inj hx
          | succ j =>
            rw [hlast] at hx
            cases hx
    · cases hadd'.symm.trans hadd
      exact ⟨a, .inr ⟨rfl, rfl⟩, h⟩
  | set index val =>
    obtain ⟨k1, hset, hrun⟩ := of_bind hrun
    cases hrun
    have hlt : index < k.num := index_of_assert hset
    obtain ⟨x, hx⟩ := h.get?_of_lt hlt
    rw [arraySet_ok hx] at hset
    cases hset
    exact ⟨_, ⟨hnum ▸ hlt, rfl, rfl⟩, h.set index val.1⟩
  | get index =>
    obtain ⟨x, hget, hrun⟩ := of_bind hrun
    cases hrun
    have hlt : index < k.num := index_of_assert hget
    obtain ⟨y, hy⟩ := h.get?_of_lt hlt
    rw [arrayGet_ok hy] at hget
    cases hget
    refine ⟨a, ⟨hnum ▸ hlt, rfl, _, rfl, fun z hz => ?_⟩, h⟩
    exact Option.some.inj (hy.symm.trans (h.elems index z hz))
  | setsize heap num =>
    obtain ⟨⟨ret, k1⟩, hset, hrun⟩ := of_bind hrun
    cases hrun
    rcases arraySetsize_cases h.wf num with ⟨-, b, hset', hb, hbnum, htake⟩ |
      ⟨-, -, hset'⟩ | ⟨-, hset'⟩
    · cases hset'.symm.trans hset
      refine ⟨⟨resized a.elems num, k'.max⟩, .inl ⟨rfl, rfl⟩, hb, rfl,
        hbnum.trans (length_resized _ _).symm, fun i x hx => ?_⟩
      have hi : i < k'.num := by
        rw [hbnum, ← length_resized a.elems num]
        exact lt_of_known hx
      have hx' := h.elems i x (resized_known hx)
      rw [← htake, List.getElem?_take] at hx'
      rw [KArray.elems, List.getElem?_take, if_pos hi]
      split at hx'
      · exact hx'
      · cases hx'
    · cases hset'.symm.trans hset
      exact ⟨a, .inr ⟨rfl, rfl⟩, h⟩
    · cases hset'.symm.trans hset
  | remove index =>
    obtain ⟨k1, hremove, hrun⟩ := of_bind hrun
    cases hrun
    obtain ⟨_, -, hremove'⟩ := of_bind hremove
    have hlt : index < k.num := index_of_assert hremove'
    obtain ⟨b, hremove2, hb, helems⟩ := arrayRemove_ok h.wf hlt
    cases hremove2.symm.trans hremove
    have hlt' : index < a.elems.length := hnum ▸ hlt
    refine ⟨_, ⟨hlt', rfl, rfl⟩, hb, (arrayRemove_max hremove).trans h.max, ?_, fun i x hx => ?_⟩
    · rw [← hb.length_elems, helems, List.length_eraseIdx_of_lt (hlen.symm ▸ hlt),
        List.length_eraseIdx_of_lt hlt', hlen, hnum]
    · rw [List.getElem?_eraseIdx] at hx
      rw [helems, List.getElem?_eraseIdx]
      split at hx
      · rw [if_pos ‹_›]
        exact h.elems i x hx
      · rw [if_neg ‹_›]
        exact h.elems (i + 1) x hx

/-- **Arrays that are given by their values meet the same specification.** -/
theorem karray_allows {ops : List ArrayOp} {rs : List ArrayRes} {k : KArray Nat}
    (hrun : runCalls karrayCall arrayCreate ops = .ok (rs, k)) :
    ∃ a, Allows ArrayPost ⟨[], 0⟩ ops rs a ∧ KArrayStands k a :=
  runCalls_allows (R := KArrayStands) (fun _ _ op _ _ h hcall => h.call op hcall)
    ⟨arrayCreate_wf, rfl, rfl, by simp⟩ hrun

end

end JinxOS
