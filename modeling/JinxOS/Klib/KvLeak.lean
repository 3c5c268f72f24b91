import JinxOS.Klib.KvTable

/-!
# Entries that leak

`hashtable_add` takes an entry with the same key out of its chain, and then forgets it: `removed` is
only used for the test whether to count the new entry.  So the objects that are allocated are those
in the table, as many as `hashtable_getsize` says, and those that have been forgotten (`KvInv`).
This holds for all keys; it does not matter how they are compared.

For C strings the entries that `rehash` moves have distinct keys, and it is only a call of
`hashtable_add` with a key that is in the table that makes the difference (`overwrites_iff`).
-/

namespace JinxOS

open Buckets

namespace KvTable

variable {E : Type} [KvOps E]

/-! ## The invariant -/

/-- The chains of a table spell these buckets, and `r` entries are allocated that are still to be
moved to the table. -/
structure KvChains (r : Nat) (t : KvTable E) (bs : List (List E)) : Prop where
  vals : t.vals = bs.map KList.of
  length : bs.length = t.arraysize
  placed : Placed (slot t.arraysize) bs
  size : t.size = bs.flatten.length
  load : 2 * t.size ≤ t.arraysize
  pow : ∃ k, t.arraysize = 2 ^ (k + 3)
  le : t.arraysize ≤ 2 ^ 29
  live : t.created = t.freed + t.size + t.dropped + r

/-- The invariant of the table, while `r` entries are still to be moved to it. -/
def KvInv (r : Nat) (t : KvTable E) : Prop := ∃ bs, KvChains r t bs

/-- `n` entries have come into the table, or into the place of others. -/
structure Gains (n : Nat) (t t' : KvTable E) : Prop where
  total : t'.size + t'.dropped = t.size + t.dropped + n
  dropped : t.dropped ≤ t'.dropped

section
variable {r : Nat} {t : KvTable E} {bs : List (List E)}

section
variable (hc : KvChains r t bs)
include hc

theorem KvChains.pos : 8 ≤ t.arraysize := eight_le_slots hc.pow

theorem KvChains.exists_chain (kv : E) :
    ∃ b, bs[slot t.arraysize kv]? = some b ∧ deref t.vals[slot t.arraysize kv]? = .ok (.of b) := by
  have hlt : slot t.arraysize kv < bs.length := by
    rw [hc.length]
    exact Nat.mod_lt _ (lt_of_lt_of_le (by decide) hc.pos)
  refine ⟨_, List.getElem?_eq_getElem hlt, ?_⟩
  rw [hc.vals, List.getElem?_map, List.getElem?_eq_getElem hlt]
  rfl

theorem KvChains.size_eq {i : Nat} {b : List E} (hb : bs[i]? = some b) :
    t.size = b.length + (bs.eraseIdx i).flatten.length := by
  rw [hc.size, (flatten_perm hb).length_eq, List.length_append]

theorem KvChains.set {kv : E} {b b' : List E} {n m d r' : Nat}
    (hb : bs[slot t.arraysize kv]? = some b) (hb' : ∀ x ∈ b', x ∈ b ∨ x = kv)
    (hn : n + b.length = t.size + b'.length) (hload : 2 * n ≤ t.arraysize)
    (hlive : m = t.freed + n + d + r') : KvInv r' { t with
      vals := t.vals.set (slot t.arraysize kv) (.of b')
      size := n
      created := m
      dropped := d } := by
  refine ⟨bs.set (slot t.arraysize kv) b', ?_, ?_, hc.placed.set fun x hx => ?_, ?_, hload,
    hc.pow, hc.le, hlive⟩
  · rw [List.map_set, hc.vals]
  · rw [List.length_set]
    exact hc.length
  · rcases hb' x hx with hold | rfl
    · exact hc.placed _ b hb x hold
    · rfl
  · have hsize := hc.size_eq hb
    change n = _
    rw [(flatten_set_perm hb b').length_eq, List.length_append]
    omega

end

theorem kvInv_empty (hsize : t.size = 0) (hvals : t.vals = List.replicate t.arraysize listCreate)
    (hpow : ∃ k, t.arraysize = 2 ^ (k + 3)) (hle : t.arraysize ≤ 2 ^ 29)
    (hlive : t.created = t.freed + t.dropped + r) : KvInv r t := by
  refine ⟨List.replicate t.arraysize [], ?_, List.length_replicate, placed_replicate _, ?_,
    ?_, hpow, hle, ?_⟩
  · rw [hvals, List.map_replicate]
    rfl
  · rw [flatten_replicate_nil, hsize]
    rfl
  · rw [hsize]
    exact Nat.zero_le _
  · rw [hsize, Nat.add_zero, hlive]

theorem KvChains.renew (hc : KvChains r t bs) {n : Nat} (hpow : ∃ k, n = 2 ^ (k + 3))
    (hle : n ≤ 2 ^ 29) : KvInv (t.size + r) (t.renew n) := by
  refine kvInv_empty rfl rfl hpow hle ?_
  have hlive := hc.live
  change t.created = t.freed + t.dropped + (t.size + r)
  omega

theorem KvInv.free (hi : KvInv (r + 1) t) : KvInv r t.free := by
  obtain ⟨bs, hc⟩ := hi
  refine ⟨bs, hc.vals, hc.length, hc.placed, hc.size, hc.load, hc.pow, hc.le, ?_⟩
  have hlive := hc.live
  change t.created = t.freed + 1 + t.size + t.dropped + r
  omega

end

/-! ## One entry -/

section
variable {r : Nat} {t : KvTable E}

omit [KvOps E] in
theorem length_eraseP_find? (b : List E) (p : E → Bool) :
    (b.eraseP p).length + (if (b.find? p).isSome then 1 else 0) = b.length := by
  cases hf : b.find? p with
  | none =>
    rw [List.eraseP_of_forall_not fun x hx => List.find?_eq_none.1 hf x hx]
    rfl
  | some x =>
    have hmem := List.mem_of_find?_eq_some hf
    rw [List.length_eraseP_of_mem hmem (List.find?_some hf)]
    exact Nat.sub_add_cancel (List.length_pos_of_mem hmem)

theorem KvChains.insert_eq {bs : List (List E)} (hc : KvChains r t bs) {kv : E} {b : List E}
    (hb : bs[slot t.arraysize kv]? = some b)
    (hchain : deref t.vals[slot t.arraysize kv]? = .ok (.of b)) : insert t kv = .ok { t with
      vals := t.vals.set (slot t.arraysize kv)
        (.of (b.eraseP (fun x => KvOps.cmp x kv = 0) ++ [kv]))
      size := if (b.find? fun x => KvOps.cmp x kv = 0).isSome then t.size else t.size + 1
      created := t.created + 1
      dropped := if (b.find? fun x => KvOps.cmp x kv = 0).isSome then t.dropped + 1
        else t.dropped } := by
  have hsize := hc.size_eq hb
  have hload := hc.load
  have hle := hc.le
  have hshorter := length_eraseP_find? b fun x => KvOps.cmp x kv = 0
  rw [insert]
  rw [hchain, ok_bind, listRemove_of (by omega)]
  dsimp only
  rw [listPushBack_of (by omega), ok_bind, Word.add_eq]
  rfl

/-- **An entry is put into its chain.**  If there is one with the same key, it is forgotten. -/
theorem insert_ok (hi : KvInv r t) (hroom : 2 * (t.size + 1) ≤ t.arraysize) (kv : E) :
    ∃ t', insert t kv = .ok t' ∧ KvInv r t' ∧ t'.arraysize = t.arraysize ∧ Gains 1 t t' := by
  obtain ⟨bs, hc⟩ := hi
  obtain ⟨b, hb, hchain⟩ := hc.exists_chain kv
  have hlive := hc.live
  have hload := hc.load
  have hlen := length_eraseP_find? b fun x => KvOps.cmp x kv = 0
  have hmem : ∀ x ∈ b.eraseP (fun x => KvOps.cmp x kv = 0) ++ [kv], x ∈ b ∨ x = kv := by
    intro x hx
    rcases List.mem_append.1 hx with hx | hx
    · exact .inl (List.mem_of_mem_eraseP hx)
    · exact .inr (List.mem_singleton.1 hx)
  have hrun := hc.insert_eq hb hchain
  by_cases hf : (b.find? fun x => KvOps.cmp x kv = 0).isSome = true
  · simp only [if_pos hf] at hrun hlen
    refine ⟨_, hrun, hc.set hb hmem ?_ hload (by omega), rfl, (Nat.add_assoc ..).symm,
      Nat.le_succ _⟩
    rw [List.length_append, List.length_singleton, hlen]
  · simp only [if_neg hf] at hrun hlen
    refine ⟨_, hrun, hc.set hb hmem ?_ hroom (by omega), rfl, Nat.add_right_comm .., le_rfl⟩
    rw [List.length_append, List.length_singleton, ← hlen]
    omega

end

/-! ## All entries -/

section

/-! `I r t` is what holds of the new table when `r` entries are still to be moved. -/

variable {add : KvTable E → E → Except Fault (KvTable E)} {I : Nat → KvTable E → Prop}
  (hadd : ∀ {r : Nat} {t : KvTable E} (kv : E), I (r + 1) t → ∃ t', add t kv = .ok t' ∧ I r t'.free)
include hadd

omit [KvOps E] in
theorem rehashChain_ok (c : List E) {fuel r : Nat} {t : KvTable E} (hfuel : c.length < fuel)
    (hlt : c.length < 2 ^ 32) (hI : I (r + c.length) t) :
    ∃ t', rehashChain add fuel t (.of c) = .ok (t', .of []) ∧ I r t' := by
  induction c generalizing fuel t with
  | nil =>
    obtain ⟨fuel, rfl⟩ := Nat.exists_eq_add_of_lt hfuel
    exact ⟨t, rfl, hI⟩
  | cons kv c ih =>
    obtain ⟨fuel, rfl⟩ := Nat.exists_eq_add_of_lt hfuel
    obtain ⟨t1, hrun, hI1⟩ := hadd kv hI
    obtain ⟨t', hrun', hI'⟩ := ih (Nat.lt_of_succ_lt_succ hfuel) (Nat.lt_of_succ_lt hlt) hI1
    refine ⟨t', ?_, hI'⟩
    rw [rehashChain, listFront_of, ok_bind, List.head?_cons]
    dsimp only
    rw [hrun, ok_bind, listPopFront_of hlt, ok_bind, hrun']

omit [KvOps E] in
theorem rehashSlot_ok (c : List E) {r : Nat} {t : KvTable E} (hlt : c.length < 2 ^ 32)
    (hI : I (r + c.length) t) : ∃ t', rehashSlot add t (.of c) = .ok (t', .of []) ∧ I r t' := by
  cases c with
  | nil => exact ⟨t, rfl, hI⟩
  | cons kv c =>
    obtain ⟨t', hrun, hI'⟩ := rehashChain_ok hadd (kv :: c) hlt hlt hI
    have hsome : 0 < listGetsize (.of (kv :: c)) := Nat.zero_lt_succ _
    refine ⟨t', ?_, hI'⟩
    rw [rehashSlot, if_pos hsome, loopFuel, hrun]
    rfl

omit [KvOps E] in
/-- **All entries of an array are moved**, and its chains are empty afterwards. -/
theorem rehash_ok (cs : List (List E)) {r : Nat} {t : KvTable E} (hlt : cs.flatten.length < 2 ^ 32)
    (hI : I (r + cs.flatten.length) t) :
    ∃ t', rehash add t (cs.map KList.of) = .ok (t', cs.map fun _ => .of []) ∧ I r t' := by
  induction cs generalizing t with
  | nil => exact ⟨t, rfl, hI⟩
  | cons c cs ih =>
    rw [List.flatten_cons, List.length_append] at hlt hI
    rw [Nat.add_comm c.length, ← Nat.add_assoc] at hI
    obtain ⟨t1, hrun, hI1⟩ := rehashSlot_ok hadd c (by omega) hI
    obtain ⟨t', hrun', hI'⟩ := ih (by omega) hI1
    refine ⟨t', ?_, hI'⟩
    rw [List.map_cons, rehash, hrun, ok_bind]
    dsimp only
    rw [hrun', ok_bind]
    rfl

/-- **The array is replaced** by one with `n` slots. -/
theorem resize_ok {r n : Nat} {t : KvTable E} {bs : List (List E)} (hc : KvChains r t bs)
    (hI : I t.size (t.renew n)) : ∃ t', resize add t n = .ok t' ∧ I 0 t' := by
  have hload := hc.load
  have hle := hc.le
  have hsize := hc.size
  have hcleanup : cleanup (bs.map fun _ => KList.of ([] : List E)) = .ok () := by
    clear hc hsize
    induction bs with
    | nil => rfl
    | cons b bs ih => exact ih
  obtain ⟨t', hrun, hI'⟩ := rehash_ok hadd bs (by omega) (by rwa [Nat.zero_add, ← hsize])
  refine ⟨t', ?_, hI'⟩
  rw [resize, hc.vals, hrun, ok_bind]
  dsimp only
  rw [hcleanup, ok_bind]

end

/-! ## `hashtable_add` -/

/-- The entries of `t₀` are moved to `t`, all but `r`.  There are `r₀` more, which are for `t₀`. -/
structure Moving (r₀ : Nat) (t₀ : KvTable E) (r : Nat) (t : KvTable E) : Prop where
  inv : KvInv (r + r₀) t
  total : t.size + r + t.dropped = t₀.size + t₀.dropped
  dropped : t₀.dropped ≤ t.dropped

section
variable {r : Nat} {t : KvTable E}

theorem KvChains.moving {bs : List (List E)} (hc : KvChains r t bs) {n : Nat}
    (hpow : ∃ k, n = 2 ^ (k + 3)) (hle : n ≤ 2 ^ 29) : Moving r t t.size (t.renew n) := by
  refine ⟨hc.renew hpow hle, ?_, le_rfl⟩
  change 0 + t.size + t.dropped = t.size + t.dropped
  rw [Nat.zero_add]

theorem Moving.step {r0 : Nat} {t0 t' : KvTable E} (hm : Moving r0 t0 (r + 1) t)
    (hi : KvInv (r + 1 + r0) t') (hg : Gains 1 t t') : Moving r0 t0 r t'.free := by
  have htotal := hm.total
  have hgain := hg.total
  refine ⟨KvInv.free (by rwa [Nat.add_right_comm] at hi), ?_, hm.dropped.trans hg.dropped⟩
  change t'.size + r + t'.dropped = _
  omega

theorem Moving.done {r0 : Nat} {t0 : KvTable E} (hm : Moving r0 t0 0 t) :
    KvInv r0 t ∧ Gains 0 t0 t := by
  have hinv := hm.inv
  rw [Nat.zero_add] at hinv
  exact ⟨hinv, hm.total, hm.dropped⟩

theorem KvInv.load_eq (hi : KvInv r t) :
    Word.mul (Word.add t.size 1) lfMultiple = 2 * (t.size + 1) := by
  obtain ⟨bs, hc⟩ := hi
  exact JinxOS.load_eq hc.load hc.le

theorem add_room (hi : KvInv r t) (hroom : 2 * (t.size + 1) ≤ t.arraysize) (depth : Nat) (kv : E) :
    add (depth + 1) t kv = insert t kv := by
  rw [add, growIfFull, hi.load_eq, if_neg (Nat.not_lt.2 hroom), ok_bind]

/-- Entries are moved to a table with `n` slots, which has room for those that are still to come. -/
def Filling (n r₀ : Nat) (t₀ : KvTable E) (r : Nat) (t : KvTable E) : Prop :=
  Moving r₀ t₀ r t ∧ t.arraysize = n ∧ 2 * (t.size + r) ≤ n

theorem Filling.add (depth : Nat) {n r0 : Nat} {t0 : KvTable E} (kv : E)
    (hf : Filling n r0 t0 (r + 1) t) :
    ∃ t', add (depth + 1) t kv = .ok t' ∧ Filling n r0 t0 r t'.free := by
  obtain ⟨hm, harr, hroom⟩ := hf
  have hone : 2 * (t.size + 1) ≤ t.arraysize := by omega
  obtain ⟨t', hrun, hi', harr', hg⟩ := insert_ok hm.inv hone kv
  have htotal := hg.total
  have hdropped := hg.dropped
  refine ⟨t', ?_, hm.step hi' hg, harr'.trans harr, ?_⟩
  · rw [add_room hm.inv hone, hrun]
  · change 2 * (t'.size + r) ≤ n
    omega

/-- **`grow`** doubles the array.  The calls of `hashtable_add` that it makes do not. -/
theorem grow_ok (hi : KvInv r t) (hle : t.arraysize ≤ 2 ^ 28) (depth : Nat) :
    ∃ t', grow (add (depth + 1)) t = .ok (0, t') ∧ KvInv r t' ∧ t'.arraysize = 2 * t.arraysize ∧
      Gains 0 t t' := by
  obtain ⟨bs, hc⟩ := hi
  have hload := hc.load
  obtain ⟨hdouble, hbytes, hpow⟩ := slots_double hc.pow hle
  have hstart : Filling (2 * t.arraysize) r t t.size (t.renew (2 * t.arraysize)) := by
    refine ⟨hc.moving hpow (by omega), rfl, ?_⟩
    change 2 * (0 + t.size) ≤ 2 * t.arraysize
    omega
  obtain ⟨t', hrun, hm, harr, -⟩ := resize_ok (Filling.add depth) hc hstart
  obtain ⟨hi', hg⟩ := hm.done
  refine ⟨t', ?_, hi', harr, hg⟩
  rw [grow, hdouble, if_neg hbytes, hrun, ok_bind]

/-- **`hashtable_add`** puts an entry into the table, and grows the array at most once. -/
theorem add_ok (hi : KvInv r t) (hmem : t.arraysize < 2 * (t.size + 1) → t.arraysize ≤ 2 ^ 28)
    (depth : Nat) (kv : E) : ∃ t', add (depth + 2) t kv = .ok t' ∧ KvInv r t' ∧
      t'.arraysize = (if t.arraysize < 2 * (t.size + 1) then 2 * t.arraysize else t.arraysize) ∧
      Gains 1 t t' := by
  by_cases hfull : t.arraysize < 2 * (t.size + 1)
  · obtain ⟨t1, hrun1, hi1, harr1, hg1⟩ := grow_ok hi (hmem hfull) depth
    obtain ⟨bs, hc⟩ := hi
    have hload := hc.load
    have hpos := hc.pos
    have htotal1 := hg1.total
    have hdropped1 := hg1.dropped
    obtain ⟨t', hrun, hi', harr, hg⟩ := insert_ok hi1 (by omega) kv
    have htotal := hg.total
    refine ⟨t', ?_, hi', by rw [harr, harr1, if_pos hfull], by omega, hdropped1.trans hg.dropped⟩
    rw [add, growIfFull, KvInv.load_eq ⟨bs, hc⟩, if_pos hfull, hrun1]
    exact hrun
  · obtain ⟨t', hrun, hi', harr, hg⟩ := insert_ok hi (Nat.not_lt.1 hfull) kv
    refine ⟨t', ?_, hi', by rw [harr, if_neg hfull], hg⟩
    rw [add_room hi (Nat.not_lt.1 hfull), hrun]

end

/-! ## `hashtable_remove` -/

section
variable {r : Nat} {t : KvTable E}

/-- Entries are moved to a table with `n` slots, which may be doubled once. -/
def Refilling (n r₀ : Nat) (t₀ : KvTable E) (r : Nat) (t : KvTable E) : Prop :=
  Moving r₀ t₀ r t ∧ (t.arraysize = n ∨ t.arraysize = 2 * n) ∧ t.size + r ≤ n

theorem Refilling.add (depth : Nat) {n r0 : Nat} {t0 : KvTable E} (hn : n ≤ 2 ^ 28) {r : Nat}
    {t : KvTable E} (kv : E) (hf : Refilling n r0 t0 (r + 1) t) :
    ∃ t', add (depth + 2) t kv = .ok t' ∧ Refilling n r0 t0 r t'.free := by
  obtain ⟨hm, harr, hroom⟩ := hf
  have hmem : t.arraysize < 2 * (t.size + 1) → t.arraysize ≤ 2 ^ 28 := by omega
  obtain ⟨t', hrun, hi', harr', hg⟩ := add_ok hm.inv hmem depth kv
  have htotal := hg.total
  have hdropped := hg.dropped
  refine ⟨t', hrun, hm.step hi' hg, ?_, ?_⟩
  · change t'.arraysize = n ∨ t'.arraysize = 2 * n
    split at harr' <;> omega
  · change t'.size + r ≤ n
    omega

/-- **`shrink`** moves the entries to an array of half the size, which may be doubled on the way. -/
theorem shrink_ok (hi : KvInv r t) (hmin : minSize < t.arraysize) (depth : Nat) :
    ∃ t', shrink (add (depth + 2)) t = .ok (0, t') ∧ KvInv r t' ∧ Gains 0 t t' := by
  obtain ⟨bs, hc⟩ := hi
  have hload := hc.load
  have hle := hc.le
  obtain ⟨n, hn, hhalf, hbytes, hpow⟩ := slots_half hc.pow hle hmin
  have hstart : Refilling n r t t.size (t.renew n) := by
    refine ⟨hc.moving hpow (by omega), .inl rfl, ?_⟩
    change 0 + t.size ≤ n
    omega
  obtain ⟨t', hrun, hm, -⟩ := resize_ok (Refilling.add depth (by omega : n ≤ 2 ^ 28)) hc hstart
  obtain ⟨hi', hg⟩ := hm.done
  refine ⟨t', ?_, hi', hg⟩
  rw [shrink, hhalf, if_neg hbytes, hrun, ok_bind]

theorem shrinkIfSparse_ok (hi : KvInv r t) (depth : Nat) :
    ∃ t', shrinkIfSparse (add (depth + 2)) t = .ok t' ∧ KvInv r t' ∧ Gains 0 t t' := by
  rw [shrinkIfSparse]
  split
  · rename_i hsparse
    obtain ⟨t', hrun, hi', hg⟩ := shrink_ok hi hsparse.1 depth
    exact ⟨t', by rw [hrun, ok_bind], hi', hg⟩
  · exact ⟨t, rfl, hi, rfl, le_rfl⟩

theorem find_eq {query : E} {b : List E}
    (hchain : deref t.vals[slot t.arraysize query]? = .ok (.of b)) :
    find t query = .ok (b.find? fun x => KvOps.cmp x query = 0) := by
  rw [find, hchain, ok_bind]
  rfl

/-- **`hashtable_remove`** frees the entry that it removes, the one that `hashtable_find` finds. -/
theorem remove_ok (hi : KvInv r t) (query : E) :
    ∃ res t', remove t query = .ok (res, t') ∧ find t query = .ok res ∧ KvInv r t' ∧
      t.dropped ≤ t'.dropped ∧
      (res = none ∧ t' = t ∨ t'.size + t'.dropped + 1 = t.size + t.dropped) := by
  obtain ⟨bs, hc⟩ := hi
  obtain ⟨b, hb, hchain⟩ := hc.exists_chain query
  have hsize := hc.size_eq hb
  have hload := hc.load
  have hle := hc.le
  have hlive := hc.live
  have hshort : b.length < 2 ^ 32 := by omega
  have hfind := find_eq hchain
  have hremove := listRemove_of hshort query KvOps.cmp
  have hlen := length_eraseP_find? b fun x => KvOps.cmp x query = 0
  cases hf : b.find? fun x => KvOps.cmp x query = 0 with
  | none =>
    refine ⟨none, t, ?_, hf ▸ hfind, ⟨bs, hc⟩, le_rfl, .inl ⟨rfl, rfl⟩⟩
    rw [remove]
    rw [hchain, ok_bind, hremove, listFind]
    dsimp only [KList.of]
    rw [hf]
  | some kv =>
    rw [hf, Option.isSome_some, if_pos rfl] at hlen
    have hsub : Word.sub t.size 1 = t.size - 1 := Word.sub_eq
    -- the entry is still allocated while the array shrinks
    have hi1 : KvInv (r + 1) { t with
        vals := t.vals.set (slot t.arraysize query) (.of (b.eraseP fun x => KvOps.cmp x query = 0))
        size := Word.sub t.size 1 } := by
      refine hc.set hb (fun x hx => .inl (List.mem_of_mem_eraseP hx)) ?_ ?_ ?_ <;> omega
    obtain ⟨t', hrun, hi', hg⟩ := shrinkIfSparse_ok hi1 1
    have htotal := hg.total
    dsimp only at htotal
    refine ⟨some kv, t'.free, ?_, hf ▸ hfind, hi'.free, hg.dropped, .inr ?_⟩
    · rw [remove]
      rw [hchain, ok_bind, hremove, listFind]
      dsimp only [KList.of]
      rw [hf]
      rw [show nesting = 1 + 2 from rfl]
      exact congrArg (· >>= _) hrun
    · change t'.size + t'.dropped + 1 = _
      omega

end

end KvTable

/-! ## Runs -/

open KvTable

section
variable {E : Type} [KvOps E] {t t' : KvTable E} {tr : List (KvTable E × KvOp E)}

theorem KvTable.KvInv.doubles {r : Nat} (hi : KvInv r t) {kv : E}
    (halloc : (KvOp.add kv).Allocates t) (hfull : t.arraysize < 2 * (t.size + 1)) :
    t.arraysize ≤ 2 ^ 28 := by
  rw [KvOp.Allocates, hi.load_eq] at halloc
  obtain ⟨bs, hc⟩ := hi
  exact slots_le_of_bytes hc.pow hc.le (halloc hfull)

/-- **Every call returns**, and keeps the invariant. -/
theorem KvTable.KvInv.call (hi : KvInv 0 t) {a : KvOp E} (halloc : a.Allocates t) :
    ∃ res t', kvCall t a = .ok (res, t') ∧ KvInv 0 t' ∧ t.dropped ≤ t'.dropped := by
  cases a with
  | add kv =>
    obtain ⟨t', hrun, hi', -, hg⟩ := add_ok hi (hi.doubles halloc) 1 kv
    refine ⟨none, t', ?_, hi', hg.dropped⟩
    rw [kvCall, show nesting = 1 + 2 from rfl, hrun, ok_bind]
  | find query =>
    obtain ⟨bs, hc⟩ := hi
    obtain ⟨b, -, hchain⟩ := hc.exists_chain query
    refine ⟨b.find? fun x => KvOps.cmp x query = 0, t, ?_, ⟨bs, hc⟩, le_rfl⟩
    rw [kvCall, find_eq hchain, ok_bind]
  | remove query =>
    obtain ⟨res, t', hrun, -, hi', hle, -⟩ := remove_ok hi query
    exact ⟨res, t', hrun, hi', hle⟩

theorem KvRun.inv (hrun : KvRun tr t) : KvInv 0 t := by
  refine Run.invariant (fun t hinit => ?_) (fun t a t' hi hstep => ?_) hrun
  · subst hinit
    exact kvInv_empty rfl rfl ⟨0, rfl⟩ (show 8 ≤ 2 ^ 29 by decide) rfl
  · obtain ⟨halloc, res, hcall⟩ := hstep
    obtain ⟨res1, t1, hcall1, hi1, -⟩ := hi.call halloc
    obtain ⟨-, rfl⟩ := Prod.mk.inj (Except.ok.inj (hcall1.symm.trans hcall))
    exact hi1

theorem not_overwrites_iff {a : KvOp E} {res : Option E} (hcall : kvCall t a = .ok (res, t')) :
    ¬ Overwrites t a ↔ t'.dropped = t.dropped := by
  constructor
  · intro hno
    by_contra hne
    exact hno ⟨res, t', hcall, hne⟩
  · rintro heq ⟨res1, t1, hcall1, hne⟩
    obtain ⟨-, rfl⟩ := Prod.mk.inj (Except.ok.inj (hcall.symm.trans hcall1))
    exact hne heq

theorem KvRun.dropped_eq_zero (hrun : KvRun tr t) :
    t.dropped = 0 ↔ ∀ e ∈ tr, ¬ Overwrites e.1 e.2 := by
  induction hrun with
  | init hinit =>
    subst hinit
    exact iff_of_true rfl fun e he => absurd he List.not_mem_nil
  | @step tr t t' a hrun hstep ih =>
    obtain ⟨halloc, res, hcall⟩ := hstep
    obtain ⟨res1, t1, hcall1, -, hle⟩ := KvInv.call (KvRun.inv hrun) halloc
    obtain ⟨-, rfl⟩ := Prod.mk.inj (Except.ok.inj (hcall1.symm.trans hcall))
    rw [List.forall_mem_cons, ← ih, not_overwrites_iff hcall]
    omega

end

/-! ## C strings -/

section
variable {t : KvTable Kv} {tr : List (KvTable Kv × KvOp Kv)}

theorem KvRun.chains (hrun : KvRun tr t) : ∃ bs, Chains t.erase bs ∧ t.entries = bs.flatten := by
  obtain ⟨bs, hc, -⟩ := hrun.erase.rep
  exact ⟨bs, hc, entries_eq hc.vals⟩

theorem KvRun.add_dropped (hrun : KvRun tr t) {kv : Kv} (halloc : (KvOp.add kv).Allocates t)
    {t' : KvTable Kv} (hadd : add nesting t kv = .ok t') :
    t'.dropped = t.dropped ↔ ¬ ∃ x ∈ t.entries, x.key = kv.key := by
  obtain ⟨bs, hc, hentries⟩ := hrun.chains
  obtain ⟨t1, hadd1, -, -, hg⟩ := add_ok hrun.inv (hrun.inv.doubles halloc) 1 kv
  obtain rfl := Except.ok.inj (hadd1.symm.trans hadd)
  obtain ⟨h', bs', hadd', hc', -, hperm⟩ :=
    hashtableAdd_ok hc (hrun.inv.doubles halloc) 1 kv.key kv.val
  have herase := add_erase (1 + 2) t kv
  rw [hadd1, hadd'] at herase
  cases herase
  have hsize : t.size = bs.flatten.length := hc.size
  have hsize' : t1.size = (others Kv.key kv.key bs.flatten).length + 1 :=
    hc'.size.trans hperm.length_eq
  have hcount := length_others hc.nodup kv.key
  have htotal := hg.total
  have hfound : (lookupKv bs.flatten kv.key).isSome ↔ ∃ x ∈ t.entries, x.key = kv.key := by
    rw [hentries, lookupKv, Option.isSome_map, List.find?_isSome]
    simp
  rw [← hfound]
  split at hcount
  · rename_i hsome
    exact iff_of_false (by omega) fun hnone => hnone hsome
  · rename_i hnone
    exact iff_of_true (by omega) hnone

theorem KvRun.remove_dropped (hrun : KvRun tr t) {query : Kv} {res : Option Kv} {t' : KvTable Kv}
    (hremove : remove t query = .ok (res, t')) : t'.dropped = t.dropped := by
  obtain ⟨bs, hc, -⟩ := hrun.chains
  obtain ⟨res1, t1, hremove1, -, -, hle, hgone⟩ := remove_ok hrun.inv query
  obtain ⟨-, rfl⟩ := Prod.mk.inj (Except.ok.inj (hremove1.symm.trans hremove))
  rcases hgone with ⟨-, rfl⟩ | hgone
  · rfl
  · obtain ⟨h', bs', hremove', hc', hperm, -⟩ := hashtableRemove_ok hc query.key
    have herase := remove_erase t query
    rw [hremove1, hremove'] at herase
    obtain ⟨-, rfl⟩ := Prod.mk.inj (Except.ok.inj herase)
    have hsize : t.size = bs.flatten.length := hc.size
    have hsize' : t1.size = (others Kv.key query.key bs.flatten).length :=
      hc'.size.trans hperm.length_eq
    have hcount := length_others hc.nodup query.key
    split at hcount <;> omega

/-- **C strings are overwritten by calls of `hashtable_add` only**, with a key that is in the table.
-/
theorem overwrites_iff (hrun : KvRun tr t) {a : KvOp Kv} (halloc : a.Allocates t) :
    Overwrites t a ↔ ∃ kv, a = .add kv ∧ ∃ x ∈ t.entries, x.key = kv.key := by
  obtain ⟨res, t', hcall, -⟩ := hrun.inv.call halloc
  rw [← not_iff_not, not_overwrites_iff hcall]
  cases a with
  | add kv =>
    obtain ⟨t1, hadd, hcall⟩ := of_bind hcall
    cases hcall
    rw [hrun.add_dropped halloc hadd, not_iff_not]
    constructor
    · exact fun hx => ⟨kv, rfl, hx⟩
    · rintro ⟨kv', heq, hx⟩
      exact KvOp.add.inj heq ▸ hx
  | find query =>
    obtain ⟨found, -, hcall⟩ := of_bind hcall
    cases hcall
    exact iff_of_true rfl nofun
  | remove query => exact iff_of_true (hrun.remove_dropped hcall) nofun

end

/-- **Entries leak when they are overwritten.**  After every run, the entries that have been
allocated and not freed are as many as `hashtable_getsize` says, exactly if no call has overwritten
one.  For C strings that is a call of `hashtable_add` with a key that is in the table. -/
theorem kvRun_balance_iff {E : Type} [KvOps E] {tr : List (KvTable E × KvOp E)} {t : KvTable E}
    (hrun : KvRun tr t) : (t.created = t.freed + t.getsize ↔ ∀ e ∈ tr, ¬ Overwrites e.1 e.2) ∧
    (∀ a : KvOp E, a.Allocates t → ∃ res t', kvCall t a = .ok (res, t')) ∧
    ∀ {trs : List (KvTable Kv × KvOp Kv)} {ts : KvTable Kv}, KvRun trs ts →
      ∀ a : KvOp Kv, a.Allocates ts →
        (Overwrites ts a ↔ ∃ kv, a = .add kv ∧ ∃ x ∈ ts.entries, x.key = kv.key) := by
  refine ⟨?_, fun a halloc => ?_, fun hruns a halloc => ?_⟩
  · rw [← hrun.dropped_eq_zero]
    obtain ⟨bs, hc⟩ := hrun.inv
    have hlive := hc.live
    rw [getsize]
    omega
  · obtain ⟨res, t', hcall, -⟩ := hrun.inv.call halloc
    exact ⟨res, t', hcall⟩
  · exact overwrites_iff hruns halloc

/-- Five keys are added, and the first is removed: the array grows and shrinks, and all is well. -/
theorem kvRun_balance_iff_five : ∃ (tr : List (KvTable Kv × KvOp Kv)) (t : KvTable Kv),
    KvRun tr t ∧ t.created = 13 ∧ t.freed = 9 ∧ t.getsize = 4 ∧ ∀ e ∈ tr, ¬ Overwrites e.1 e.2 := by
  have hrun := kvRun_history
    [.add (⟨charKey 97 (by decide), 1⟩ : Kv), .add ⟨charKey 98 (by decide), 2⟩,
      .add ⟨charKey 99 (by decide), 3⟩, .add ⟨charKey 100 (by decide), 4⟩,
      .add ⟨charKey 101 (by decide), 5⟩, .remove ⟨charKey 97 (by decide), 0⟩] (by decide +kernel)
  refine ⟨_, _, hrun, ?_, ?_, ?_, (kvRun_balance_iff hrun).1.1 ?_⟩ <;> decide +kernel

/-- **The same key is added twice**: there are two entries, and one of them is lost. -/
theorem not_balanced_twice : ∃ (tr : List (KvTable Kv × KvOp Kv)) (t : KvTable Kv),
    KvRun tr t ∧ t.created = 2 ∧ t.freed = 0 ∧ t.getsize = 1 := by
  have hrun := kvRun_history
    [.add (⟨charKey 97 (by decide), 1⟩ : Kv), .add ⟨charKey 97 (by decide), 2⟩] (by decide +kernel)
  refine ⟨_, _, hrun, ?_, ?_, ?_⟩ <;> decide +kernel

end JinxOS
