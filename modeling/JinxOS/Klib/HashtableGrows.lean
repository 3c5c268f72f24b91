import JinxOS.Klib.HashtableMap

/-!
# When the array of the hash table is replaced

`grow` and `shrink` move the entries to a new array by calls of `hashtable_add`, each of which has
the test of `hashtable_add` again.  `Hashtable.found` lists the tables that these calls find: by
`resize_eq`, the entries are added in the order of the old array.

`grow` leaves room for all of them.  `shrink` does not: at most half of the slots are ever used, so
`(h->size - 1) * LF_MULTIPLE` is below `h->arraysize` unless `h->size` is 0, and `hashtable_remove`
halves every array that has more than the least number of slots.

* `Chains.found_room`, `Chains.found_full` — an array that can hold the entries, and one that
  cannot;
* `hashRun_dense` — **the array fits the entries**: they fill a quarter to a half of it;
* `hashRun_reallocs_iff` — **the array is replaced at most once**, unless a removal leaves more
  entries than half of it can hold.
-/

namespace JinxOS

open Buckets

/-! ## Calls in `rehash` -/

namespace Hashtable

/-- The test of `hashtable_add`. -/
def full (h : Hashtable) : Bool := h.arraysize < Word.mul (Word.add h.size 1) lfMultiple

/-- `hashtable_add` replaces the array: `grow` is called, and its `kmalloc` succeeds. -/
def grows (h : Hashtable) : Bool := h.full && Word.mul (Word.mul h.arraysize 2) 4 != 0

/-- `hashtable_remove` replaces the array, once it has taken an entry out of the table. -/
def shrinks (h : Hashtable) : Bool :=
  (minSize < h.arraysize && Word.mul (Word.sub h.size 1) lfMultiple < h.arraysize) &&
    Word.mul (h.arraysize / 2) 4 != 0

/-- The entries, in the order of the array. -/
def entries (h : Hashtable) : List Kv := (h.vals.map KList.vals).flatten

/-- The tables that the calls of `hashtable_add` find which `rehash` makes for an array with `n`
slots: the one for the entry `k` finds the entries before it. -/
def found (depth n : Nat) (h : Hashtable) : List Hashtable :=
  (List.range h.entries.length).filterMap fun k =>
    (addAll (hashtableAdd depth) ⟨hashtableType, 0, n, initArrayWithLists n⟩
      (h.entries.take k)).toOption

end Hashtable

/-- How often a call of `hashtable_add` replaces an array. -/
def addReallocs : Nat → Hashtable → Nat
  | 0, _ => 0
  | depth + 1, h =>
    if h.grows then 1 + ((h.found depth (Word.mul h.arraysize 2)).map (addReallocs depth)).sum
    else 0

namespace HashOp

/-- The table for which `rehash` is called, with the number of slots of the new array, and how often
calls can still be nested in it. -/
def resized (h : Hashtable) : HashOp → Option (Nat × Nat × Hashtable)
  | .add _ _ => if h.grows then some (2, Word.mul h.arraysize 2, h) else none
  | .find _ => none
  | .remove key => ((h.without key).filter Hashtable.shrinks).map fun h =>
      (nesting, h.arraysize / 2, h)

/-- The tables that the calls of `hashtable_add` find which a call makes from inside `rehash`. -/
def calls (h : Hashtable) (a : HashOp) : List Hashtable :=
  match a.resized h with
  | none => []
  | some (depth, n, h) => h.found depth n

/-- How often a call replaces the array. -/
def reallocs (h : Hashtable) (a : HashOp) : Nat :=
  match a.resized h with
  | none => 0
  | some (depth, n, h) => 1 + ((h.found depth n).map (addReallocs depth)).sum

/-- The call removes an entry from a table, and the others do not fit into half of the array. -/
def Thrashes (h : Hashtable) : HashOp → Prop
  | .remove key => key ∈ h.entries.map Kv.key ∧ minSize < h.arraysize ∧
      h.arraysize / 2 < 2 * (h.size - 1)
  | _ => False

end HashOp

/-! ## What the calls find -/

variable {h t : Hashtable} {bs : List (List Kv)} {n k depth : Nat}

theorem mem_found : t ∈ h.found depth n ↔ ∃ k < h.entries.length,
    addAll (hashtableAdd depth) ⟨hashtableType, 0, n, initArrayWithLists n⟩
      (h.entries.take k) = .ok t := by
  have hok : ∀ x : Except Fault Hashtable, x.toOption = some t ↔ x = .ok t := by
    intro x
    cases x <;> simp [Except.toOption]
  simp only [Hashtable.found, List.mem_filterMap, List.mem_range, hok]

namespace Chains

variable (hc : Chains h bs)
include hc

theorem entries_eq : h.entries = bs.flatten := by
  rw [Hashtable.entries, hc.vals, List.map_map]
  exact congrArg _ (List.map_id bs)

theorem full_iff : h.full = true ↔ h.arraysize < 2 * (h.size + 1) := by
  rw [Hashtable.full, hc.load_eq, decide_eq_true_iff]

/-- **`hashtable_remove` halves every array** above the least size, if the table is not empty. -/
theorem shrinks_iff : h.shrinks = true ↔ minSize < h.arraysize ∧ 0 < h.size := by
  have hload := hc.load
  have hle := hc.le
  rw [Hashtable.shrinks, Bool.and_eq_true, Bool.and_eq_true, decide_eq_true_iff,
    decide_eq_true_iff, bne_iff_ne]
  constructor
  · rintro ⟨⟨hmin, htest⟩, -⟩
    refine ⟨hmin, Nat.pos_of_ne_zero fun hzero => ?_⟩
    -- `h->size - 1` wraps around
    rw [hzero, show Word.mul (Word.sub 0 1) lfMultiple = 2 ^ 32 - 2 from rfl] at htest
    omega
  · rintro ⟨hmin, hpos⟩
    obtain ⟨m, -, hhalf, hbytes, -⟩ := slots_half hc.pow hle hmin
    rw [Word.sub_eq, lfMultiple, Word.mul_eq, hhalf]
    exact ⟨⟨hmin, by omega⟩, hbytes⟩

variable (hpow : ∃ k, n = 2 ^ (k + 3))
include hpow

theorem moved_ok (depth : Nat) (hle : n ≤ 2 ^ 29) (hk : k ≤ h.size) (hroom : 2 * k ≤ n) :
    ∃ t bs', addAll (hashtableAdd (depth + 1)) ⟨hashtableType, 0, n, initArrayWithLists n⟩
        (h.entries.take k) = .ok t ∧
      Chains t bs' ∧ t.arraysize = n ∧ t.size = k := by
  have hlen : (bs.flatten.take k).length = k := by
    rw [List.length_take, ← hc.size, Nat.min_eq_left hk]
  have hstart : Filling n (0 + (bs.flatten.take k).length)
      ⟨hashtableType, 0, n, initArrayWithLists n⟩ (List.replicate n []) := by
    refine ⟨.empty hpow hle, rfl, ?_⟩
    dsimp only
    omega
  obtain ⟨t, bs', hrun, ⟨hc', harr, -⟩, hperm⟩ := addAll_ok (Filling.add depth) _ hstart (by
    rw [flatten_replicate_nil, List.nil_append]
    exact hc.nodup.sublist ((List.take_sublist k _).map Kv.key))
  refine ⟨t, bs', by rw [hc.entries_eq, hrun], hc', harr, ?_⟩
  rw [hc'.size, hperm.length_eq, flatten_replicate_nil, List.nil_append, hlen]

/-- **An array that can hold the entries** is not replaced. -/
theorem found_room (depth : Nat) (hle : n ≤ 2 ^ 29) (hroom : 2 * h.size ≤ n) :
    (∀ t ∈ h.found (depth + 1) n, t.full = false) ∧
      ((h.found (depth + 1) n).map (addReallocs (depth + 1))).sum = 0 := by
  have hfull : ∀ t ∈ h.found (depth + 1) n, t.full = false := by
    intro t ht
    obtain ⟨k, hk, hrun⟩ := mem_found.1 ht
    rw [hc.entries_eq, ← hc.size] at hk
    obtain ⟨t', bs', hrun', hc', harr, hsize⟩ := hc.moved_ok hpow depth hle (Nat.le_of_lt hk)
      (by omega)
    cases hrun.symm.trans hrun'
    rw [← Bool.not_eq_true, hc'.full_iff]
    omega
  refine ⟨hfull, List.sum_eq_zero fun x hx => ?_⟩
  obtain ⟨t, ht, rfl⟩ := List.mem_map.1 hx
  rw [addReallocs, Hashtable.grows, hfull t ht]
  rfl

/-- **An array that is too small** is replaced by one of the calls. -/
theorem found_full (depth : Nat) (hle : n ≤ 2 ^ 28) (hroom : n < 2 * h.size) :
    (∃ t ∈ h.found (depth + 1) n, t.full = true) ∧
      0 < ((h.found (depth + 1) n).map (addReallocs (depth + 1))).sum := by
  have hk : n / 2 < h.size := by omega
  obtain ⟨t, bs', hrun, hc', harr, hsize⟩ := hc.moved_ok hpow depth (by omega)
    (Nat.le_of_lt hk) (by omega)
  have ht : t ∈ h.found (depth + 1) n :=
    mem_found.2 ⟨n / 2, by rwa [hc.entries_eq, ← hc.size], hrun⟩
  have hfull : t.full = true := hc'.full_iff.2 (by omega)
  have hgrows : t.grows = true := by
    obtain ⟨hdouble, hbytes, -⟩ := slots_double hpow hle
    rw [Hashtable.grows, hfull, harr, hdouble, Bool.true_and, bne_iff_ne]
    exact hbytes
  refine ⟨⟨t, ht, hfull⟩, List.sum_pos_iff_exists_pos_nat.2 ⟨_, List.mem_map_of_mem ht, ?_⟩⟩
  rw [addReallocs, if_pos hgrows]
  exact Nat.lt_add_right _ Nat.one_pos

end Chains

/-! ## All runs -/

theorem Chains.call_dense (hc : Chains h bs) {a : HashOp} (halloc : a.Allocates h) {res : Nat}
    (hcall : hashCall h a = .ok (res, t)) (hdense : h.Dense minSize) : t.Dense minSize := by
  cases a with
  | add key val =>
    rw [HashOp.Allocates, hc.load_eq] at halloc
    obtain ⟨t', bs', hadd, hc', harr, hperm⟩ := hashtableAdd_ok hc
      (fun hfull => slots_le_of_bytes hc.pow hc.le (halloc hfull)) 1 key val
    rw [hashCall, nesting, hadd] at hcall
    cases hcall
    have hsize := hperm.length_eq
    have hothers := length_others hc.nodup key
    rw [List.length_cons, ← hc'.size] at hsize
    rw [← hc.size] at hothers
    obtain ⟨k, hpow⟩ := hc.pow
    rw [Nat.pow_succ] at hpow
    rw [Hashtable.Dense] at hdense ⊢
    split at harr <;> split at hothers <;> omega
  | find key =>
    rw [hashCall, hashtableFind_ok hc] at hcall
    cases hcall
    exact hdense
  | remove key =>
    obtain ⟨t', bs', hremove, -, -, hkeep⟩ := hashtableRemove_ok hc key
    rw [hashCall, hremove] at hcall
    cases hcall
    exact hkeep hdense

/-- **The array fits the entries.**  In every table that a run reaches, at most half of the array is
used and, unless it has the least size, at least a quarter. -/
theorem hashRun_dense {tr : List (Hashtable × HashOp)} {h : Hashtable} (hrun : HashRun tr h) :
    2 * h.size ≤ h.arraysize ∧ (h.arraysize = minSize ∨ h.arraysize ≤ 4 * h.size) := by
  suffices hdense : h.Dense minSize by
    obtain ⟨bs, hc, -⟩ := hrun.rep
    exact ⟨hc.load, hdense⟩
  induction hrun with
  | init hinit => exact hinit ▸ .inl rfl
  | step hrun hstep ih =>
    obtain ⟨bs, hc, -⟩ := HashRun.rep hrun
    obtain ⟨halloc, res, hcall⟩ := hstep
    exact hc.call_dense halloc hcall ih

theorem hashRun_dense_six : (lettersTable 6).arraysize ≤ 4 * (lettersTable 6).size :=
  (hashRun_dense lettersTable_run.2).2.resolve_left (by decide +kernel)

theorem Chains.op_cases (hc : Chains h bs) (a : HashOp) :
    (¬ a.Thrashes h ∧ (∀ t ∈ a.calls h, t.full = false) ∧ a.reallocs h ≤ 1) ∨
      (a.Thrashes h ∧ (∃ t ∈ a.calls h, t.full = true) ∧ 1 < a.reallocs h) := by
  have hload := hc.load
  have hle := hc.le
  have hnone : a.resized h = none → (∀ t ∈ a.calls h, t.full = false) ∧ a.reallocs h ≤ 1 := by
    intro hnone
    rw [HashOp.calls, HashOp.reallocs, hnone]
    exact ⟨fun t ht => absurd ht List.not_mem_nil, Nat.zero_le 1⟩
  cases a with
  | find key => exact .inl ⟨id, hnone rfl⟩
  | add key val =>
    refine .inl ⟨id, ?_⟩
    by_cases hgrows : h.grows = true
    · obtain ⟨-, hbytes⟩ := Bool.and_eq_true_iff.1 hgrows
      have hle' := slots_le_of_bytes hc.pow hle (bne_iff_ne.1 hbytes)
      obtain ⟨hdouble, -, hpow⟩ := slots_double hc.pow hle'
      obtain ⟨hroom, hsum⟩ := hc.found_room hpow 1 (by omega) (by omega)
      rw [HashOp.calls, HashOp.reallocs, HashOp.resized, if_pos hgrows, hdouble]
      exact ⟨hroom, by dsimp only; rw [hsum]⟩
    · exact hnone (if_neg hgrows)
  | remove key =>
    cases hv : lookupKv bs.flatten key with
    | none =>
      refine .inl ⟨fun hthrash => ?_, hnone ?_⟩
      · rw [lookupKv, Option.map_eq_none_iff, find?_eq_none_iff] at hv
        exact hv (hc.entries_eq ▸ hthrash.1)
      · rw [HashOp.resized, (hc.without_none hv).1]
        rfl
    | some v =>
      obtain ⟨h1, bs1, hwithout, hc1, harr, hsize, -⟩ := hc.without_some hv
      have hmem : key ∈ h.entries.map Kv.key := by
        rw [hc.entries_eq]
        exact List.mem_map_of_mem ((lookupKv_eq_some hc.nodup).1 hv)
      have hthrash : (HashOp.remove key).Thrashes h ↔
          minSize < h1.arraysize ∧ h1.arraysize / 2 < 2 * h1.size := by
        rw [HashOp.Thrashes, harr, ← hsize, Nat.add_sub_cancel]
        exact and_iff_right hmem
      rw [hthrash]
      by_cases hshrinks : h1.shrinks = true
      · obtain ⟨hmin, hpos⟩ := hc1.shrinks_iff.1 hshrinks
        obtain ⟨m, -, hhalf, -, hpow⟩ := slots_half hc1.pow hc1.le hmin
        have hresized : (HashOp.remove key).resized h = some (2 + 1, m, h1) := by
          rw [HashOp.resized, hwithout, Option.filter_some, if_pos hshrinks, Option.map_some, hhalf,
            nesting]
        rw [HashOp.calls, HashOp.reallocs, hresized, hhalf]
        dsimp only
        rcases Nat.lt_or_ge m (2 * h1.size) with hfew | hroom
        · obtain ⟨hfull, hsum⟩ := hc1.found_full hpow 2 (by omega) hfew
          exact .inr ⟨⟨hmin, hfew⟩, hfull, by omega⟩
        · obtain ⟨hfull, hsum⟩ := hc1.found_room hpow 2 (by omega) hroom
          exact .inl ⟨fun h => by omega, hfull, by omega⟩
      · refine .inl ⟨fun hthrash => ?_, hnone ?_⟩
        · exact hshrinks (hc1.shrinks_iff.2 ⟨hthrash.1, by omega⟩)
        · rw [HashOp.resized, hwithout, Option.filter_some, if_neg hshrinks]
          rfl

/-- **Resizing thrashes only after removals.**  In every table that a run reaches, no call of
`hashtable_add` that a call makes from inside `rehash` finds a full table, and the array is replaced
at most once, if and only if the call does not remove an entry and leave more of them than half of
the array can hold. -/
theorem hashRun_reallocs_iff {tr : List (Hashtable × HashOp)} {h : Hashtable} (hrun : HashRun tr h)
    (a : HashOp) : ((∀ t ∈ a.calls h, t.full = false) ↔ ¬ a.Thrashes h) ∧
      (a.reallocs h ≤ 1 ↔ ¬ a.Thrashes h) := by
  obtain ⟨bs, hc, -⟩ := hrun.rep
  rcases hc.op_cases a with ⟨hnot, hfull, hone⟩ | ⟨hthrash, ⟨t, ht, hfull⟩, htwo⟩
  · exact ⟨iff_of_true hfull hnot, iff_of_true hone hnot⟩
  · refine ⟨iff_of_false (fun h => ?_) (not_not_intro hthrash),
      iff_of_false (Nat.not_le.2 htwo) (not_not_intro hthrash)⟩
    rw [h t ht] at hfull
    cases hfull

/-- A key is removed from a table with five, and the array is halved. -/
theorem hashRun_reallocs_iff_five :
    (HashOp.remove (charKey 97 (by decide))).reallocs (lettersTable 5) ≤ 1 := by
  refine (hashRun_reallocs_iff lettersTable_run.1 _).2.2 fun hthrash => ?_
  exact absurd hthrash.2.2 (by decide +kernel)

/-- A key is removed from a table with six.  The array is halved, and doubled again for the last of
the entries that are left. -/
theorem not_reallocs_six : HashRun (lettersTrace 6) (lettersTable 6) ∧
    (∃ t ∈ (HashOp.remove (charKey 97 (by decide))).calls (lettersTable 6), t.full = true) ∧
      (HashOp.remove (charKey 97 (by decide))).reallocs (lettersTable 6) = 2 :=
  ⟨lettersTable_run.2, by decide +kernel, by decide +kernel⟩

end JinxOS
