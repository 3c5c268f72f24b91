import JinxOS.Klib.Hashtable
import JinxOS.Lib.Buckets

/-!
# What the calls of the hash table do

`Chains` relates a table to the buckets that its chains spell, and is the invariant of the table:
every entry is in the slot of its key, keys are distinct, `size` is the number of entries and at
most half of `arraysize`, which is a power of two.

* `hashtableInsert_ok` — an entry is put into its chain;
* `rehash_eq`, `addAll_ok` — entries are moved to a new array, for any function that adds one;
* `hashtableAdd_ok` — `hashtable_add` grows the array at most once, and no call of `hashtable_add`
  that it makes itself grows it again;
* `hashtableRemove_ok` — when the array is halved, moving the entries may double it again, once.
-/

namespace JinxOS

open Buckets
open List (getElem?_map length_append append_assoc length_cons map_cons flatten_cons
    append_nil nil_append)

/-! ## Keys -/

variable {l b : List Kv} {i n r arraysize : Nat}

/-- **`key_comparator` finds equal keys.** -/
theorem keyComparator_eq_zero (l r : Kv) : keyComparator l r = 0 ↔ l.key = r.key := by
  have hl := l.key.length_lt
  have hr := r.key.length_lt
  rw [keyComparator]
  by_cases hlen : l.key.strlen = r.key.strlen
  · rw [if_pos hlen, strcmp_eq_zero l.key.noNul r.key.noNul]
    exact ⟨Key.ext, fun he => he ▸ rfl⟩
  · rw [if_neg hlen]
    refine iff_of_false ?_ fun he => hlen (he ▸ rfl)
    rw [Key.strlen, Key.strlen] at hlen ⊢
    rw [wordToInt, Word.sub]
    split <;> omega

theorem keyComparator_eq (key : Key) :
    (fun x : Kv => decide (keyComparator x ⟨key, 0⟩ = 0)) = fun x => decide (x.key = key) := by
  funext x
  exact decide_eq_decide.2 (keyComparator_eq_zero x ⟨key, 0⟩)

/-! ## The number of slots

It is a power of two, at least 8 and at most `2 ^ 29`, for which `kmalloc` is asked for `2 ^ 31`
bytes. -/

section
variable {n : Nat}

section
variable (hpow : ∃ k, n = 2 ^ (k + 3))
include hpow

theorem eight_le_slots : 8 ≤ n := by
  obtain ⟨k, hk⟩ := hpow
  rw [hk, Nat.pow_add]
  have := Nat.one_le_two_pow (n := k)
  omega

theorem slots_le_of_bytes (hle : n ≤ 2 ^ 29)
    (hbytes : Word.mul (Word.mul n 2) 4 ≠ 0) : n ≤ 2 ^ 28 := by
  obtain ⟨k, hk⟩ := hpow
  by_contra hbig
  -- a power of two above `2 ^ 28` and up to `2 ^ 29` is the latter
  have hk29 : k + 3 = 29 := by
    have hlo : 28 < k + 3 := (Nat.pow_lt_pow_iff_right (by decide)).1 (hk ▸ Nat.not_le.1 hbig)
    have hhi : k + 3 ≤ 29 := (Nat.pow_le_pow_iff_right (by decide)).1 (hk ▸ hle)
    omega
  rw [hk, hk29] at hbytes
  exact hbytes rfl

theorem slots_double (hle : n ≤ 2 ^ 28) :
    Word.mul n 2 = 2 * n ∧ Word.mul (2 * n) 4 ≠ 0 ∧ ∃ k, 2 * n = 2 ^ (k + 3) := by
  have hpos := eight_le_slots hpow
  obtain ⟨k, hk⟩ := hpow
  refine ⟨by rw [Word.mul_eq, Nat.mul_comm], ?_, k + 1, by rw [hk, ← Nat.pow_succ']⟩
  rw [Word.mul_eq]
  omega

theorem slots_half (hle : n ≤ 2 ^ 29) (hmin : minSize < n) :
    ∃ m, n = 2 * m ∧ n / 2 = m ∧ Word.mul m 4 ≠ 0 ∧ ∃ k, m = 2 ^ (k + 3) := by
  obtain ⟨k, hk⟩ := hpow
  cases k with
  | zero =>
    rw [hk] at hmin
    exact absurd hmin (by decide)
  | succ k =>
    have htwice : n = 2 * 2 ^ (k + 3) := by rw [hk, ← Nat.pow_succ']
    refine ⟨2 ^ (k + 3), htwice, by omega, ?_, k, rfl⟩
    rw [Word.mul_eq]
    omega

end

theorem load_eq {size : Nat} (hload : 2 * size ≤ n) (hle : n ≤ 2 ^ 29) :
    Word.mul (Word.add size 1) lfMultiple = 2 * (size + 1) := by
  rw [Word.add_eq, lfMultiple, Word.mul_eq, Nat.mul_comm]

end

/-! ## The invariant -/

/-- The chains of a table spell these buckets. -/
structure Chains (h : Hashtable) (bs : List (List Kv)) : Prop where
  datatype : h.datatype = hashtableType
  vals : h.vals = bs.map KList.of
  length : bs.length = h.arraysize
  placed : Placed (fun kv => slotOf h.arraysize kv.key) bs
  nodup : (bs.flatten.map Kv.key).Nodup
  size : h.size = bs.flatten.length
  load : 2 * h.size ≤ h.arraysize
  pow : ∃ k, h.arraysize = 2 ^ (k + 3)
  le : h.arraysize ≤ 2 ^ 29

/-- The value that a key has in a list of entries. -/
def lookupKv (l : List Kv) (key : Key) : Option Nat := (l.find? fun kv => kv.key = key).map Kv.val

theorem lookupKv_eq_some (h : (l.map Kv.key).Nodup) {key : Key} {v : Nat} :
    lookupKv l key = some v ↔ ⟨key, v⟩ ∈ l := by
  rw [lookupKv, Option.map_eq_some_iff]
  constructor
  · rintro ⟨kv, hkv, rfl⟩
    obtain ⟨hmem, rfl⟩ := (find?_eq_some_iff h).1 hkv
    exact hmem
  · exact fun hmem => ⟨⟨key, v⟩, (find?_eq_some_iff h).2 ⟨hmem, rfl⟩, rfl⟩

variable {h : Hashtable} {bs : List (List Kv)}

namespace Chains

variable {key : Key}

section
variable (hc : Chains h bs)
include hc

theorem pos : 8 ≤ h.arraysize := eight_le_slots hc.pow

theorem assert_ok : assertHashtable h = .ok () := by
  rw [assertHashtable, hc.datatype]
  rfl

theorem slot_lt (key : Key) : slotOf h.arraysize key < bs.length := by
  rw [hc.length]
  exact Nat.mod_lt _ (lt_of_lt_of_le (by decide) hc.pos)

theorem exists_chain (key : Key) : ∃ b, bs[slotOf h.arraysize key]? = some b ∧
    deref h.vals[slotOf h.arraysize key]? = .ok (.of b) := by
  refine ⟨_, List.getElem?_eq_getElem (hc.slot_lt key), ?_⟩
  rw [hc.vals, getElem?_map, List.getElem?_eq_getElem (hc.slot_lt key)]
  rfl

section
variable (hb : bs[i]? = some b)
include hb

theorem length_le : b.length ≤ h.size := by
  rw [hc.size, (flatten_perm hb).length_eq, length_append]
  exact Nat.le_add_right ..

theorem length_lt : b.length + 1 < 2 ^ 32 := by
  have hb' := hc.length_le hb
  have hload := hc.load
  have hle := hc.le
  omega

theorem nodup_chain : (b.map Kv.key).Nodup := by
  have hperm := ((flatten_perm hb).map Kv.key).nodup_iff.1 hc.nodup
  rw [List.map_append] at hperm
  exact hperm.of_append_left

theorem listRemove_chain (key : Key) : listRemove (.of b) ⟨key, 0⟩ keyComparator =
      (b.find? fun kv => kv.key = key, .of (others Kv.key key b)) := by
  rw [listRemove_of (Nat.lt_of_succ_lt (hc.length_lt hb)), listFind, keyComparator_eq,
    eraseP_eq_others (hc.nodup_chain hb)]
  rfl

end

theorem not_mem_rest : key ∉ (bs.eraseIdx (slotOf h.arraysize key)).flatten.map Kv.key := by
  intro hmem
  obtain ⟨kv, hkv, rfl⟩ := List.mem_map.1 hmem
  exact hc.placed.slot_ne hkv rfl

theorem lookup_chain (hb : bs[slotOf h.arraysize key]? = some b) :
    lookupKv b key = lookupKv bs.flatten key := by
  refine Option.ext fun v => ?_
  rw [lookupKv_eq_some (hc.nodup_chain hb), lookupKv_eq_some hc.nodup]
  exact (hc.placed.mem_iff hb).symm

theorem others_perm (hb : bs[slotOf h.arraysize key]? = some b) :
    (others Kv.key key bs.flatten).Perm
      (others Kv.key key b ++ (bs.eraseIdx (slotOf h.arraysize key)).flatten) := by
  refine (perm_others (flatten_perm hb)).trans ?_
  rw [others_append, others_of_not_mem hc.not_mem_rest]

end

/-- The table that `hashtable_create`, `grow` and `shrink` begin with. -/
theorem empty (hpow : ∃ k, n = 2 ^ (k + 3)) (hle : n ≤ 2 ^ 29) :
    Chains ⟨hashtableType, 0, n, initArrayWithLists n⟩ (List.replicate n []) where
  datatype := rfl
  vals := by
    rw [initArrayWithLists, List.map_replicate]
    rfl
  length := List.length_replicate
  placed := placed_replicate n
  nodup := by
    rw [flatten_replicate_nil]
    exact List.nodup_nil
  size := by
    rw [flatten_replicate_nil]
    rfl
  load := Nat.zero_le _
  pow := hpow
  le := hle

end Chains

/-! ## One entry -/

theorem length_others (hl : (l.map Kv.key).Nodup) (key : Key) :
    (others Kv.key key l).length + (if (lookupKv l key).isSome then 1 else 0) = l.length := by
  cases hv : lookupKv l key with
  | none =>
    rw [lookupKv, Option.map_eq_none_iff, find?_eq_none_iff] at hv
    rw [others_of_not_mem hv]
    rfl
  | some v =>
    have hmem := (lookupKv_eq_some hl).1 hv
    rw [(perm_cons_others hl hmem rfl).length_eq]
    rfl

theorem Chains.set (hc : Chains h bs) {key : Key} {b' : List Kv}
    (hb : bs[slotOf h.arraysize key]? = some b) (hb' : ∀ kv ∈ b', kv ∈ b ∨ kv.key = key)
    (hnodup : ((bs.set (slotOf h.arraysize key) b').flatten.map Kv.key).Nodup)
    (hn : n = (bs.set (slotOf h.arraysize key) b').flatten.length) (hload : 2 * n ≤ h.arraysize) :
    Chains { h with vals := h.vals.set (slotOf h.arraysize key) (.of b'), size := n }
      (bs.set (slotOf h.arraysize key) b') where
  datatype := hc.datatype
  vals := by
    rw [List.map_set, hc.vals]
  length := by
    rw [List.length_set]
    exact hc.length
  placed := hc.placed.set fun kv hkv => by
    rcases hb' kv hkv with hold | rfl
    · exact hc.placed _ b hb kv hold
    · rfl
  nodup := hnodup
  size := hn
  load := hload
  pow := hc.pow
  le := hc.le

/-- **An entry is put into its chain**, in place of one with the same key. -/
theorem hashtableInsert_ok (hc : Chains h bs) (hroom : 2 * (h.size + 1) ≤ h.arraysize) (key : Key)
    (val : Nat) : ∃ h' bs', hashtableInsert h key val = .ok h' ∧ Chains h' bs' ∧
      h'.arraysize = h.arraysize ∧
      bs'.flatten.Perm (⟨key, val⟩ :: others Kv.key key bs.flatten) := by
  obtain ⟨b, hb, hchain⟩ := hc.exists_chain key
  have hlt := hc.length_lt hb
  have hle := hc.le
  have hremove := hc.listRemove_chain hb key
  have hpush : listPushBack (.of (others Kv.key key b)) ⟨key, val⟩ =
      .ok (.of (others Kv.key key b ++ [⟨key, val⟩])) := by
    have hlen : (others Kv.key key b).length ≤ b.length := List.length_filter_le ..
    exact listPushBack_of (by omega) _
  have hperm : (bs.set (slotOf h.arraysize key) (others Kv.key key b ++ [⟨key, val⟩])).flatten.Perm
      (⟨key, val⟩ :: others Kv.key key bs.flatten) := by
    refine (flatten_set_perm hb _).trans ?_
    rw [append_assoc, List.singleton_append]
    exact List.perm_middle.trans ((hc.others_perm hb).symm.cons _)
  have hsize : (if (b.find? fun kv => kv.key = key).isSome then h.size else Word.add h.size 1) =
      (bs.set (slotOf h.arraysize key) (others Kv.key key b ++ [⟨key, val⟩])).flatten.length := by
    have hfound : (b.find? fun kv => kv.key = key).isSome = (lookupKv bs.flatten key).isSome := by
      rw [← hc.lookup_chain hb, lookupKv, Option.isSome_map]
    have hcount := length_others hc.nodup key
    rw [hperm.length_eq, length_cons, hfound, Word.add_eq, hc.size]
    split
    · rw [if_pos ‹_›] at hcount
      omega
    · rw [if_neg ‹_›] at hcount
      omega
  have hnodup : ((bs.set (slotOf h.arraysize key)
      (others Kv.key key b ++ [⟨key, val⟩])).flatten.map Kv.key).Nodup := by
    refine (hperm.map Kv.key).nodup_iff.2 ?_
    rw [map_cons]
    exact List.nodup_cons.2 ⟨not_mem_map_others, nodup_map_others hc.nodup⟩
  refine ⟨_, _, ?_, hc.set hb (fun kv hkv => ?_) hnodup hsize ?_, rfl, hperm⟩
  · rw [hashtableInsert]
    rw [hchain, ok_bind, hremove]
    dsimp only
    rw [hpush, ok_bind]
  · rcases List.mem_append.1 hkv with hkv | hkv
    · exact .inl (mem_others.1 hkv).1
    · exact .inr (List.mem_singleton.1 hkv ▸ rfl)
  · split
    · exact hc.load
    · rwa [Word.add_eq]

/-! ## All entries -/

section
variable {add : Hashtable → Key → Nat → Except Fault Hashtable}

variable (add) in
/-- The entries of a list are added to a table, one after the other. -/
def addAll (h : Hashtable) (l : List Kv) : Except Fault Hashtable :=
  l.foldlM (fun h kv => add h kv.key kv.val) h

theorem rehashChain_eq : ∀ (c : List Kv) {fuel : Nat} {h : Hashtable}, c.length < fuel →
    c.length < 2 ^ 32 →
    rehashChain add fuel h (.of c) = addAll add h c >>= fun h' => .ok (h', .of []) := by
  intro c
  induction c with
  | nil =>
    intro fuel h hfuel _
    obtain ⟨fuel, rfl⟩ := Nat.exists_eq_add_of_lt hfuel
    rfl
  | cons kv c ih =>
    intro fuel h hfuel hlt
    obtain ⟨fuel, rfl⟩ := Nat.exists_eq_add_of_lt hfuel
    rw [rehashChain, listFront_of, ok_bind, List.head?_cons, addAll, List.foldlM_cons, bind_assoc]
    refine bind_congr fun h1 => ?_
    rw [listPopFront_of hlt, ok_bind,
      ih (Nat.lt_of_succ_lt_succ hfuel) (Nat.lt_of_succ_lt hlt)]
    rfl

/-- **`rehash` adds the entries of an array** in their order, and leaves its chains empty. -/
theorem rehash_eq : ∀ (cs : List (List Kv)) {h : Hashtable}, cs.flatten.length < 2 ^ 32 →
    rehash add h (cs.map KList.of) =
      addAll add h cs.flatten >>= fun h' => .ok (h', cs.map fun _ => .of []) := by
  intro cs
  induction cs with
  | nil => exact fun _ => rfl
  | cons c cs ih =>
    intro h hlt
    rw [flatten_cons, length_append] at hlt
    have hslot : rehashSlot add h (.of c) = addAll add h c >>= fun h' => .ok (h', .of []) := by
      cases c with
      | nil => rfl
      | cons kv c =>
        have hsome : 0 < listGetsize (.of (kv :: c)) := Nat.zero_lt_succ _
        rw [rehashSlot, if_pos hsome, rehashChain_eq _ (by rw [loopFuel]; omega) (by omega),
          bind_assoc]
        rfl
    rw [map_cons, rehash, hslot, flatten_cons, addAll, addAll, List.foldlM_append,
      bind_assoc, bind_assoc]
    refine bind_congr fun h1 => ?_
    rw [ok_bind]
    dsimp only
    rw [ih (by omega), bind_assoc]
    rfl

theorem cleanupArrayWithLists_ok (cs : List (List Kv)) :
    cleanupArrayWithLists (cs.map fun _ => .of []) = .ok () := by
  induction cs with
  | nil => rfl
  | cons c cs ih => exact ih

/-- **The array is replaced** by one with `n` slots. -/
theorem resize_eq (hc : Chains h bs) (n : Nat) :
    resize add h n = addAll add ⟨hashtableType, 0, n, initArrayWithLists n⟩ bs.flatten := by
  have hload := hc.load
  have hle := hc.le
  have hsize := hc.size
  rw [resize]
  have hassert : assertHashtable
      { h with size := 0, arraysize := n, vals := initArrayWithLists n } = .ok () := hc.assert_ok
  rw [hassert, ok_bind, hc.datatype, hc.vals, rehash_eq bs (by omega), bind_assoc]
  refine (bind_congr fun h' => ?_).trans (bind_pure _)
  rw [ok_bind]
  dsimp only
  rw [cleanupArrayWithLists_ok]
  rfl

/-! `I r h bs` is what holds of the new table when `r` entries are still to be moved. -/

variable {I : Nat → Hashtable → List (List Kv) → Prop}
  (hadd : ∀ {r : Nat} {h : Hashtable} {bs : List (List Kv)} (key : Key) (val : Nat),
    I (r + 1) h bs → key ∉ bs.flatten.map Kv.key →
      ∃ h' bs', add h key val = .ok h' ∧ I r h' bs' ∧ bs'.flatten.Perm (⟨key, val⟩ :: bs.flatten))
include hadd

theorem addAll_ok : ∀ (l : List Kv) {r : Nat} {h : Hashtable} {bs : List (List Kv)},
    I (r + l.length) h bs → ((bs.flatten ++ l).map Kv.key).Nodup →
    ∃ h' bs', addAll add h l = .ok h' ∧ I r h' bs' ∧ bs'.flatten.Perm (bs.flatten ++ l) := by
  intro l
  induction l with
  | nil => exact fun hI _ => ⟨_, _, rfl, hI, by rw [append_nil]⟩
  | cons kv l ih =>
    intro r h bs hI hnodup
    have hmid : ((kv :: (bs.flatten ++ l)).map Kv.key).Nodup :=
      (List.perm_middle.map Kv.key).nodup_iff.1 hnodup
    have hnew : kv.key ∉ bs.flatten.map Kv.key := by
      intro hmem
      rw [map_cons, List.map_append] at hmid
      exact (List.nodup_cons.1 hmid).1 (List.mem_append_left _ hmem)
    obtain ⟨h1, bs1, hrun, hI1, hperm1⟩ := hadd kv.key kv.val hI hnew
    have happ : (bs1.flatten ++ l).Perm (bs.flatten ++ kv :: l) :=
      (hperm1.append_right l).trans List.perm_middle.symm
    obtain ⟨h', bs', hrun', hI', hperm'⟩ := ih hI1 ((happ.map Kv.key).nodup_iff.2 hnodup)
    refine ⟨h', bs', ?_, hI', hperm'.trans happ⟩
    rw [addAll, List.foldlM_cons, hrun, ok_bind]
    exact hrun'

theorem resize_ok (hc : Chains h bs)
    (hI : I h.size ⟨hashtableType, 0, n, initArrayWithLists n⟩ (List.replicate n [])) :
    ∃ h' bs', resize add h n = .ok h' ∧ I 0 h' bs' ∧ bs'.flatten.Perm bs.flatten := by
  rw [hc.size, ← Nat.zero_add bs.flatten.length] at hI
  have hall := addAll_ok hadd bs.flatten hI (by
    rw [flatten_replicate_nil, nil_append]
    exact hc.nodup)
  rwa [flatten_replicate_nil, nil_append, ← resize_eq hc] at hall

end

/-! ## `hashtable_add` -/

theorem Chains.load_eq (hc : Chains h bs) :
    Word.mul (Word.add h.size 1) lfMultiple = 2 * (h.size + 1) :=
  JinxOS.load_eq hc.load hc.le

theorem hashtableAdd_room (hc : Chains h bs) (hroom : 2 * (h.size + 1) ≤ h.arraysize) (depth : Nat)
    (key : Key) (val : Nat) : hashtableAdd (depth + 1) h key val = hashtableInsert h key val := by
  rw [hashtableAdd, hc.assert_ok, ok_bind, growIfFull, hc.load_eq, if_neg (Nat.not_lt.2 hroom),
    ok_bind]

theorem size_of_perm {h' : Hashtable} {bs' : List (List Kv)} (hc : Chains h bs)
    (hc' : Chains h' bs') {kv : Kv} (hperm : bs'.flatten.Perm (kv :: bs.flatten)) :
    h'.size = h.size + 1 := by
  rw [hc'.size, hc.size, hperm.length_eq, length_cons]

/-- Entries are moved to a table with `n` slots, which has room for those that are still to come. -/
def Filling (n r : Nat) (h : Hashtable) (bs : List (List Kv)) : Prop :=
  Chains h bs ∧ h.arraysize = n ∧ 2 * (h.size + r) ≤ n

theorem Filling.add (depth : Nat) (key : Key) (val : Nat) (hI : Filling n (r + 1) h bs)
    (hnew : key ∉ bs.flatten.map Kv.key) :
    ∃ h' bs', hashtableAdd (depth + 1) h key val = .ok h' ∧ Filling n r h' bs' ∧
      bs'.flatten.Perm (⟨key, val⟩ :: bs.flatten) := by
  obtain ⟨hc, harr, hroom⟩ := hI
  have hone : 2 * (h.size + 1) ≤ h.arraysize := by omega
  obtain ⟨h', bs', hrun, hc', harr', hperm⟩ := hashtableInsert_ok hc hone key val
  rw [others_of_not_mem hnew] at hperm
  have hsize := size_of_perm hc hc' hperm
  refine ⟨h', bs', ?_, ⟨hc', harr'.trans harr, by omega⟩, hperm⟩
  rw [hashtableAdd_room hc hone, hrun]

/-- **`grow`** doubles the array.  The calls of `hashtable_add` that it makes do not. -/
theorem grow_ok (hc : Chains h bs) (hle : h.arraysize ≤ 2 ^ 28) (depth : Nat) :
    ∃ h' bs', grow (hashtableAdd (depth + 1)) h = .ok (0, h') ∧ Chains h' bs' ∧
      h'.arraysize = 2 * h.arraysize ∧ bs'.flatten.Perm bs.flatten := by
  have hload := hc.load
  obtain ⟨hdouble, hbytes, hpow⟩ := slots_double hc.pow hle
  have hstart : Filling (2 * h.arraysize) h.size
      ⟨hashtableType, 0, 2 * h.arraysize, initArrayWithLists (2 * h.arraysize)⟩
      (List.replicate (2 * h.arraysize) []) := by
    refine ⟨.empty hpow (by omega), rfl, ?_⟩
    dsimp only
    omega
  obtain ⟨h', bs', hrun, ⟨hc', harr, -⟩, hperm⟩ := resize_ok (Filling.add depth) hc hstart
  refine ⟨h', bs', ?_, hc', harr, hperm⟩
  rw [grow, hc.assert_ok, ok_bind, hdouble, if_neg hbytes, hrun, ok_bind]

/-- **`hashtable_add`** puts an entry into the table, in place of one with the same key. -/
theorem hashtableAdd_ok (hc : Chains h bs)
    (hmem : h.arraysize < 2 * (h.size + 1) → h.arraysize ≤ 2 ^ 28) (depth : Nat) (key : Key)
    (val : Nat) : ∃ h' bs', hashtableAdd (depth + 2) h key val = .ok h' ∧ Chains h' bs' ∧
      h'.arraysize = (if h.arraysize < 2 * (h.size + 1) then 2 * h.arraysize else h.arraysize) ∧
      bs'.flatten.Perm (⟨key, val⟩ :: others Kv.key key bs.flatten) := by
  have hload := hc.load
  have hpos := hc.pos
  by_cases hfull : h.arraysize < 2 * (h.size + 1)
  · obtain ⟨h1, bs1, hrun1, hc1, harr1, hperm1⟩ := grow_ok hc (hmem hfull) depth
    have hsize : h1.size = h.size := by rw [hc1.size, hperm1.length_eq, hc.size]
    obtain ⟨h', bs', hrun, hc', harr, hperm⟩ := hashtableInsert_ok hc1 (by omega) key val
    refine ⟨h', bs', ?_, hc', by rw [harr, harr1, if_pos hfull], hperm.trans ?_⟩
    · rw [hashtableAdd, hc.assert_ok, ok_bind, growIfFull, hc.load_eq, if_pos hfull, hrun1]
      exact hrun
    · exact (perm_others hperm1).cons _
  · obtain ⟨h', bs', hrun, hc', harr, hperm⟩ := hashtableInsert_ok hc (Nat.not_lt.1 hfull) key val
    refine ⟨h', bs', ?_, hc', by rw [harr, if_neg hfull], hperm⟩
    rw [hashtableAdd_room hc (Nat.not_lt.1 hfull), hrun]

/-! ## `hashtable_remove` -/

/-- Entries are moved to a table with `n` slots, which may be doubled once. -/
def Refilling (n r : Nat) (h : Hashtable) (bs : List (List Kv)) : Prop :=
  Chains h bs ∧ (h.arraysize = n ∨ h.arraysize = 2 * n) ∧ h.size + r ≤ n

/-- The array has `n` slots, or a quarter of it is used. -/
def Hashtable.Dense (h : Hashtable) (n : Nat) : Prop := h.arraysize = n ∨ h.arraysize ≤ 4 * h.size

theorem Refilling.add (depth : Nat) (hn : n ≤ 2 ^ 28) (key : Key) (val : Nat)
    (hI : Refilling n (r + 1) h bs ∧ h.Dense n) (hnew : key ∉ bs.flatten.map Kv.key) :
    ∃ h' bs', hashtableAdd (depth + 2) h key val = .ok h' ∧ (Refilling n r h' bs' ∧ h'.Dense n) ∧
      bs'.flatten.Perm (⟨key, val⟩ :: bs.flatten) := by
  obtain ⟨⟨hc, harr, hroom⟩, hdense⟩ := hI
  have hmem : h.arraysize < 2 * (h.size + 1) → h.arraysize ≤ 2 ^ 28 := by omega
  obtain ⟨h', bs', hrun, hc', harr', hperm⟩ := hashtableAdd_ok hc hmem depth key val
  rw [others_of_not_mem hnew] at hperm
  have hsize := size_of_perm hc hc' hperm
  dsimp only [Hashtable.Dense] at hdense ⊢
  refine ⟨h', bs', hrun, ⟨⟨hc', ?_, by omega⟩, ?_⟩, hperm⟩
  · split at harr' <;> omega
  · split at harr' <;> omega

/-- **`shrink`** moves the entries to an array of half the size, which may be doubled on the way. -/
theorem shrink_ok (hc : Chains h bs) (hmin : minSize < h.arraysize) (depth : Nat) :
    ∃ h' bs', shrink (hashtableAdd (depth + 2)) h = .ok (0, h') ∧ Chains h' bs' ∧
      h'.Dense (h.arraysize / 2) ∧ bs'.flatten.Perm bs.flatten := by
  have hload := hc.load
  have hle := hc.le
  obtain ⟨n, hn, hhalf, hbytes, hpow⟩ := slots_half hc.pow hle hmin
  have hstart : Refilling n h.size ⟨hashtableType, 0, n, initArrayWithLists n⟩
      (List.replicate n []) := by
    refine ⟨.empty hpow (by omega), .inl rfl, ?_⟩
    dsimp only
    omega
  obtain ⟨h', bs', hrun, ⟨⟨hc', -⟩, hdense⟩, hperm⟩ :=
    resize_ok (I := fun r h bs => Refilling n r h bs ∧ h.Dense n)
      (Refilling.add depth (by omega : n ≤ 2 ^ 28)) hc ⟨hstart, .inl rfl⟩
  refine ⟨h', bs', ?_, hc', hhalf ▸ hdense, hperm⟩
  rw [shrink, hc.assert_ok, ok_bind, hhalf, if_neg hbytes, hrun, ok_bind]

theorem shrinkIfSparse_ok (hc : Chains h bs) (depth : Nat) :
    ∃ h' bs', shrinkIfSparse (hashtableAdd (depth + 2)) h = .ok h' ∧ Chains h' bs' ∧
      (h.arraysize = minSize ∨ h.arraysize ≤ 4 * (h.size + 1) → h'.Dense minSize) ∧
      bs'.flatten.Perm bs.flatten := by
  have hload := hc.load
  have hle := hc.le
  rw [shrinkIfSparse]
  split
  · rename_i hsparse
    obtain ⟨h', bs', hrun, hc', hdense, hperm⟩ := shrink_ok hc hsparse.1 depth
    have hsize : h'.size = h.size := by rw [hc'.size, hperm.length_eq, hc.size]
    have hmin := hsparse.1
    refine ⟨h', bs', by rw [hrun, ok_bind], hc', fun hdense0 => ?_, hperm⟩
    rw [Hashtable.Dense, minSize] at *
    omega
  · rename_i hsparse
    refine ⟨h, bs, rfl, hc, fun hdense0 => .inl (Nat.le_antisymm (Nat.le_of_not_lt fun hmin => ?_)
      hc.pos), List.Perm.refl _⟩
    have hpos : minSize < 4 * (h.size + 1) := hmin.trans_le (hdense0.resolve_left hmin.ne')
    rw [minSize] at hpos
    rw [Word.sub_eq, lfMultiple, Word.mul_eq] at hsparse
    omega

/-- The table once `hashtable_remove` has taken the entry with a key out of its chain. -/
def Hashtable.without (h : Hashtable) (key : Key) : Option Hashtable := do
  let chain ← h.vals[slotOf h.arraysize key]?
  let (removed, chain) := listRemove chain ⟨key, 0⟩ keyComparator
  if removed.isSome then
    some { h with
      vals := h.vals.set (slotOf h.arraysize key) chain
      size := Word.sub h.size 1 }
  else none

theorem Chains.without_none (hc : Chains h bs) {key : Key} (hv : lookupKv bs.flatten key = none) :
    h.without key = none ∧ hashtableRemove h key = .ok (0, h) := by
  obtain ⟨b, hb, hchain⟩ := hc.exists_chain key
  rw [← hc.lookup_chain hb, lookupKv, Option.map_eq_none_iff] at hv
  constructor
  · rw [Hashtable.without, hc.vals, getElem?_map, hb, Option.map_some, Option.bind_eq_bind,
      Option.bind_some, hc.listRemove_chain hb key, hv]
    rfl
  · rw [hashtableRemove, hc.assert_ok, ok_bind]
    dsimp only
    rw [hchain, ok_bind, hc.listRemove_chain hb key, hv]

theorem Chains.without_some (hc : Chains h bs) {key : Key} {v : Nat}
    (hv : lookupKv bs.flatten key = some v) :
    ∃ h1 bs1, h.without key = some h1 ∧ Chains h1 bs1 ∧ h1.arraysize = h.arraysize ∧
      h1.size + 1 = h.size ∧ bs1.flatten.Perm (others Kv.key key bs.flatten) ∧
      hashtableRemove h key =
        shrinkIfSparse (hashtableAdd nesting) h1 >>= fun h' => .ok (v, h') := by
  obtain ⟨b, hb, hchain⟩ := hc.exists_chain key
  have hload := hc.load
  have hle := hc.le
  have hsize0 := hc.size
  have hcount := length_others hc.nodup key
  rw [hv, Option.isSome_some, if_pos rfl] at hcount
  rw [← hc.lookup_chain hb, lookupKv, Option.map_eq_some_iff] at hv
  obtain ⟨kv, hkv, rfl⟩ := hv
  have hperm : (bs.set (slotOf h.arraysize key) (others Kv.key key b)).flatten.Perm
      (others Kv.key key bs.flatten) := (flatten_set_perm hb _).trans (hc.others_perm hb).symm
  have hsub : Word.sub h.size 1 = h.size - 1 := Word.sub_eq
  have hsize : Word.sub h.size 1 =
      (bs.set (slotOf h.arraysize key) (others Kv.key key b)).flatten.length := by
    rw [hperm.length_eq]
    omega
  have hnodup := (hperm.map Kv.key).nodup_iff.2 (nodup_map_others hc.nodup)
  refine ⟨_, _, ?_, hc.set hb (fun kv hkv => .inl (mem_others.1 hkv).1) hnodup hsize (by omega),
    rfl, ?_, hperm, ?_⟩
  · rw [Hashtable.without, hc.vals, getElem?_map, hb, Option.map_some, Option.bind_eq_bind,
      Option.bind_some, hc.listRemove_chain hb key, hkv]
    rfl
  · dsimp only
    omega
  · rw [hashtableRemove, hc.assert_ok, ok_bind]
    dsimp only
    rw [hchain, ok_bind, hc.listRemove_chain hb key, hkv]

/-- **`hashtable_remove`** returns the value of a key, and removes its entry. -/
theorem hashtableRemove_ok (hc : Chains h bs) (key : Key) :
    ∃ h' bs', hashtableRemove h key = .ok ((lookupKv bs.flatten key).getD 0, h') ∧ Chains h' bs' ∧
      bs'.flatten.Perm (others Kv.key key bs.flatten) ∧ (h.Dense minSize → h'.Dense minSize) := by
  cases hv : lookupKv bs.flatten key with
  | none =>
    refine ⟨h, bs, (hc.without_none hv).2, hc, ?_, id⟩
    rw [lookupKv, Option.map_eq_none_iff, find?_eq_none_iff] at hv
    rw [others_of_not_mem hv]
  | some v =>
    obtain ⟨h1, bs1, -, hc1, harr, hsize, hperm, hremove⟩ := hc.without_some hv
    obtain ⟨h', bs', hrun, hc', hdense, hperm'⟩ := shrinkIfSparse_ok hc1 1
    rw [harr, hsize] at hdense
    refine ⟨h', bs', ?_, hc', hperm'.trans hperm, hdense⟩
    rw [hremove, show nesting = 1 + 2 from rfl, hrun, ok_bind]
    rfl

/-- **`hashtable_find`** returns the value of a key. -/
theorem hashtableFind_ok (hc : Chains h bs) (key : Key) :
    hashtableFind h key = .ok ((lookupKv bs.flatten key).getD 0) := by
  obtain ⟨b, hb, hchain⟩ := hc.exists_chain key
  rw [hashtableFind, hc.assert_ok, ok_bind, hchain, ok_bind, ← hc.lookup_chain hb, listFind,
    keyComparator_eq, lookupKv]
  dsimp only [KList.of]
  cases b.find? fun kv => kv.key = key <;> rfl

/-! ## `hashtable_assertvalid` -/

theorem checkChain_ok : ∀ (l l' : List Kv), (l ++ l').length < 2 ^ 32 →
    (∀ kv ∈ l, slotOf arraysize kv.key = i) →
    checkChain arraysize i l.length (.of (l ++ l')) = .ok (.of (l' ++ l)) := by
  intro l
  induction l with
  | nil =>
    intro l' _ _
    rw [append_nil]
    rfl
  | cons kv l ih =>
    intro l' hlt hslot
    have hkv : (slotOf arraysize kv.key == i) = true := beq_iff_eq.2 (hslot kv List.mem_cons_self)
    have hlen : (l ++ (l' ++ [kv])).length = (kv :: l ++ l').length := by
      simp only [length_append, length_cons, List.length_nil]
      omega
    have hrest := ih (l' ++ [kv]) (hlen ▸ hlt) fun kv' hkv' =>
        hslot kv' (List.mem_cons_of_mem _ hkv')
    rw [List.cons_append] at hlt
    rw [length_cons, checkChain, List.cons_append, listFront_of, ok_bind, List.head?_cons,
      deref_some, ok_bind, hkv, assert_true, ok_bind, listPopFront_of hlt,
      ok_bind, listPushBack_of (by simpa using hlt), ok_bind, append_assoc, hrest,
      append_assoc, List.singleton_append]

theorem checkChains_ok : ∀ (cs : List (List Kv)) (i count : Nat),
    count + cs.flatten.length < 2 ^ 32 →
    (∀ j b, cs[j]? = some b → ∀ kv ∈ b, slotOf arraysize kv.key = i + j) →
    checkChains arraysize i count (cs.map KList.of) =
      .ok (count + cs.flatten.length, cs.map KList.of) := by
  intro cs
  induction cs with
  | nil => exact fun _ _ _ _ => rfl
  | cons c cs ih =>
    intro i count hlt hslot
    rw [flatten_cons, length_append] at hlt ⊢
    have hc : c.length < 2 ^ 32 := by omega
    have hcheck : checkChain arraysize i c.length (.of c) = .ok (.of c) := by
      have hrun : checkChain arraysize i c.length (.of (c ++ [])) = .ok (.of ([] ++ c)) :=
        checkChain_ok c [] (by rwa [append_nil]) fun kv hkv => hslot 0 c rfl kv hkv
      rwa [append_nil, nil_append] at hrun
    have hrest := ih (i + 1) (count + c.length) (by omega) fun j b hb kv hkv => by
      rw [hslot (j + 1) b hb kv hkv]
      omega
    rw [map_cons, checkChains, listAssertvalid_of hc, ok_bind]
    dsimp only
    rw [show listGetsize (.of c) = c.length from rfl, hcheck, ok_bind, Word.add_eq, hrest,
      ok_bind, Nat.add_assoc]

/-- **`hashtable_assertvalid`** returns, and leaves the table as it was. -/
theorem hashtableAssertvalid_ok (hc : Chains h bs) : hashtableAssertvalid h = .ok h := by
  have hload := hc.load
  have hle := hc.le
  have hsize := hc.size
  have hrun := checkChains_ok bs 0 0 (by omega) fun j b hb kv hkv => by
    rw [Nat.zero_add]
    exact hc.placed j b hb kv hkv
  rw [Nat.zero_add, ← hsize, ← hc.vals] at hrun
  rw [hashtableAssertvalid, hc.assert_ok, ok_bind, hrun, ok_bind]
  dsimp only
  rw [beq_self_eq_true, assert_true, ok_bind]

end JinxOS
