import JinxOS.Klib.HashtableCalls
import JinxOS.Lib.Runs
import Mathlib.Data.Finmap

/-!
# The hash table is a finite map

A run is any sequence of calls of `hashtable_add`, `hashtable_find` and `hashtable_remove` on a
table from `hashtable_create`.  `replay` is the finite map that the calls describe, and `HashRep`
says that a table represents a map.  Every call returns, and keeps that relation.
-/

namespace JinxOS

open Buckets

/-! ## Calls -/

/-- A call. -/
inductive HashOp
  /-- `hashtable_add(h, key, keylen, val)`. -/
  | add (key : Key) (val : Nat)
  /-- `hashtable_find(h, key, keylen)`. -/
  | find (key : Key)
  /-- `hashtable_remove(h, key, keylen)`. -/
  | remove (key : Key)

/-- What a call returns, and the table after it. -/
def hashCall (h : Hashtable) : HashOp → Except Fault (Nat × Hashtable)
  | .add key val => do
    let h ← hashtableAdd nesting h key val
    .ok (0, h)
  | .find key => do
    let res ← hashtableFind h key
    .ok (res, h)
  | .remove key => hashtableRemove h key

/-- `kmalloc` succeeds: if the array is doubled, the number of its bytes does not wrap around to 0.
-/
def HashOp.Allocates (h : Hashtable) : HashOp → Prop
  | .add _ _ => h.arraysize < Word.mul (Word.add h.size 1) lfMultiple →
      Word.mul (Word.mul h.arraysize 2) 4 ≠ 0
  | _ => True

instance (h : Hashtable) : (a : HashOp) → Decidable (a.Allocates h)
  | .add _ _ => inferInstanceAs (Decidable (h.arraysize < Word.mul (Word.add h.size 1) lfMultiple →
      Word.mul (Word.mul h.arraysize 2) 4 ≠ 0))
  | .find _ => inferInstanceAs (Decidable True)
  | .remove _ => inferInstanceAs (Decidable True)

/-- A run of calls. -/
def HashRun (tr : List (Hashtable × HashOp)) (h : Hashtable) : Prop :=
  Run (· = hashtableCreate) (fun h a h' => a.Allocates h ∧ ∃ res, hashCall h a = .ok (res, h')) tr h

/-! ## Finite maps -/

/-- What the tables stand for. -/
abbrev KeyMap := Finmap fun _ : Key => Nat

/-- What a call does to a map. -/
def HashOp.apply (m : KeyMap) : HashOp → KeyMap
  | .add key val => m.insert key val
  | .find _ => m
  | .remove key => m.erase key

/-- The map after a run. -/
def replay : List (Hashtable × HashOp) → KeyMap
  | [] => ∅
  | (_, a) :: tr => a.apply (replay tr)

/-- A table represents a map. -/
def HashRep (h : Hashtable) (m : KeyMap) : Prop :=
  ∃ bs, Chains h bs ∧ ∀ key, lookupKv bs.flatten key = m.lookup key

section
variable {l l' : List Kv} {m : KeyMap} {key : Key}

section
variable (hl : (l.map Kv.key).Nodup) (hl' : (l'.map Kv.key).Nodup)
    (hm : ∀ k, lookupKv l k = m.lookup k)
include hl hl' hm

theorem lookup_insert_perm {val : Nat} (hperm : l'.Perm (⟨key, val⟩ :: others Kv.key key l))
    (k : Key) : lookupKv l' k = (m.insert key val).lookup k := by
  refine Option.ext fun v => ?_
  rw [lookupKv_eq_some hl', hperm.mem_iff, List.mem_cons, mem_others]
  by_cases hk : k = key
  · subst hk
    rw [Finmap.lookup_insert, Kv.mk.injEq, Option.some.injEq]
    simp [eq_comm]
  · rw [Finmap.lookup_insert_of_ne _ hk, ← hm, lookupKv_eq_some hl, Kv.mk.injEq]
    simp [hk]

theorem lookup_erase_perm (hperm : l'.Perm (others Kv.key key l)) (k : Key) :
    lookupKv l' k = (m.erase key).lookup k := by
  refine Option.ext fun v => ?_
  rw [lookupKv_eq_some hl', hperm.mem_iff, mem_others]
  by_cases hk : k = key
  · subst hk
    simp
  · rw [Finmap.lookup_erase_ne hk, ← hm, lookupKv_eq_some hl]
    simp [hk]

end

section
variable (hl : (l.map Kv.key).Nodup) (hm : ∀ k, lookupKv l k = m.lookup k)
include hl hm

theorem mem_iff_mem_map : key ∈ m ↔ key ∈ l.map Kv.key := by
  rw [← Finmap.lookup_isSome, ← hm, Option.isSome_iff_exists, List.mem_map]
  constructor
  · rintro ⟨v, hv⟩
    exact ⟨_, (lookupKv_eq_some hl).1 hv, rfl⟩
  · rintro ⟨kv, hkv, rfl⟩
    exact ⟨kv.val, (lookupKv_eq_some hl).2 hkv⟩

theorem card_keys : m.keys.card = l.length := by
  have hkeys : m.keys = (l.map Kv.key).toFinset := by
    ext k
    rw [Finmap.mem_keys, List.mem_toFinset, mem_iff_mem_map hl hm]
  rw [hkeys, List.toFinset_card_of_nodup hl, List.length_map]

end

end

/-! ## Calls keep the relation -/

section
variable {h h' : Hashtable} {m : KeyMap}

theorem hashRep_create : HashRep hashtableCreate ∅ := by
  refine ⟨_, .empty ⟨0, rfl⟩ (by decide), fun key => ?_⟩
  rw [flatten_replicate_nil]
  rfl

theorem HashRep.find (hr : HashRep h m) (key : Key) :
    hashtableFind h key = .ok ((m.lookup key).getD 0) := by
  obtain ⟨bs, hc, hm⟩ := hr
  rw [hashtableFind_ok hc, hm]

theorem HashRep.remove (hr : HashRep h m) (key : Key) :
    ∃ h', hashtableRemove h key = .ok ((m.lookup key).getD 0, h') ∧ HashRep h' (m.erase key) := by
  obtain ⟨bs, hc, hm⟩ := hr
  obtain ⟨h', bs', hrun, hc', hperm, -⟩ := hashtableRemove_ok hc key
  rw [hm] at hrun
  exact ⟨h', hrun, bs', hc', lookup_erase_perm hc.nodup hc'.nodup hm hperm⟩

theorem HashRep.add (hr : HashRep h m) (key : Key) (val : Nat)
    (halloc : (HashOp.add key val).Allocates h) :
    ∃ h', hashtableAdd nesting h key val = .ok h' ∧ HashRep h' (m.insert key val) := by
  obtain ⟨bs, hc, hm⟩ := hr
  have hmem : h.arraysize < 2 * (h.size + 1) → h.arraysize ≤ 2 ^ 28 := by
    intro hfull
    rw [HashOp.Allocates, hc.load_eq] at halloc
    exact slots_le_of_bytes hc.pow hc.le (halloc hfull)
  obtain ⟨h', bs', hrun, hc', -, hperm⟩ := hashtableAdd_ok hc hmem 1 key val
  exact ⟨h', hrun, bs', hc', lookup_insert_perm hc.nodup hc'.nodup hm hperm⟩

/-- **A call does to the table what it does to the map.** -/
theorem HashRep.call (hr : HashRep h m) {a : HashOp} (halloc : a.Allocates h) {res : Nat}
    (hrun : hashCall h a = .ok (res, h')) : HashRep h' (a.apply m) := by
  cases a with
  | add key val =>
    obtain ⟨h1, hadd, hr1⟩ := hr.add key val halloc
    rw [hashCall, hadd] at hrun
    cases hrun
    exact hr1
  | find key =>
    rw [hashCall, hr.find key] at hrun
    cases hrun
    exact hr
  | remove key =>
    obtain ⟨h1, hremove, hr1⟩ := hr.remove key
    rw [hashCall, hremove] at hrun
    cases hrun
    exact hr1

theorem HashRun.rep {tr : List (Hashtable × HashOp)} (h' : HashRun tr h) :
    HashRep h (replay tr) := by
  induction h' with
  | init hinit => exact hinit ▸ hashRep_create
  | step _ hstep ih =>
    obtain ⟨halloc, res, hrun⟩ := hstep
    exact ih.call halloc hrun

theorem HashRep.count (hr : HashRep h m) {i : Nat} {chain : KList Kv} (hi : h.vals[i]? = some chain)
    (key : Key) : (chain.vals.map Kv.key).count key =
      if key ∈ m ∧ i = hash key % h.arraysize then 1 else 0 := by
  obtain ⟨bs, hc, hm⟩ := hr
  rw [hc.vals, List.getElem?_map, Option.map_eq_some_iff] at hi
  obtain ⟨b, hb, rfl⟩ := hi
  have hmem : key ∈ b.map Kv.key ↔ key ∈ m ∧ i = hash key % h.arraysize := by
    rw [mem_iff_mem_map hc.nodup hm]
    constructor
    · intro hk
      obtain ⟨kv, hkv, rfl⟩ := List.mem_map.1 hk
      refine ⟨List.mem_map_of_mem (List.mem_flatten.2 ⟨b, List.mem_iff_getElem?.2 ⟨i, hb⟩, hkv⟩),
        ?_⟩
      exact (hc.placed i b hb kv hkv).symm
    · rintro ⟨hk, rfl⟩
      obtain ⟨kv, hkv, rfl⟩ := List.mem_map.1 hk
      exact List.mem_map_of_mem ((hc.placed.mem_iff hb).1 hkv)
  split
  · exact List.count_eq_one_of_mem (hc.nodup_chain hb) (hmem.2 ‹_›)
  · exact List.count_eq_zero_of_not_mem fun hk => ‹¬ _› (hmem.1 hk)

end

/-! ## All runs -/

/-- What is known of a table that represents a map. -/
structure HashSpec (h : Hashtable) (m : KeyMap) : Prop where
  /-- `hashtable_find` returns the value of the key, or the null pointer. -/
  find : ∀ key, hashtableFind h key = .ok ((m.lookup key).getD 0)
  /-- `hashtable_remove` returns the same value. -/
  remove : ∀ key, ∃ h', hashtableRemove h key = .ok ((m.lookup key).getD 0, h')
  /-- `hashtable_add` returns: calls are nested at most `nesting` times. -/
  add : ∀ key val, (HashOp.add key val).Allocates h → ∃ h', hashtableAdd nesting h key val = .ok h'
  /-- `hashtable_getsize` returns the number of keys. -/
  size : hashtableGetsize h = .ok m.keys.card
  /-- Every key is in the chain of its hash value, once. -/
  chains : ∀ i chain, h.vals[i]? = some chain → ∀ key, (chain.vals.map Kv.key).count key =
    if key ∈ m ∧ i = hash key % h.arraysize then 1 else 0
  /-- There is a chain for every hash value. -/
  length : h.vals.length = h.arraysize
  /-- At most half of the slots are used. -/
  load : 2 * h.size ≤ h.arraysize
  /-- There are at least eight slots. -/
  pos : minSize ≤ h.arraysize
  /-- `hashtable_assertvalid` does not fail, and changes nothing. -/
  valid : hashtableAssertvalid h = .ok h

/-- **The hash table is a finite map.** -/
theorem hashRun_refines {tr : List (Hashtable × HashOp)} {h : Hashtable} (hrun : HashRun tr h) :
    HashSpec h (replay tr) := by
  have hr := hrun.rep
  obtain ⟨bs, hc, hm⟩ := hrun.rep
  refine ⟨hr.find, fun key => ?_, fun key val halloc => ?_, ?_,
    fun i chain hi key => hr.count hi key, ?_, hc.load, hc.pos, hashtableAssertvalid_ok hc⟩
  · obtain ⟨h', hrun', -⟩ := hr.remove key
    exact ⟨h', hrun'⟩
  · obtain ⟨h', hrun', -⟩ := hr.add key val halloc
    exact ⟨h', hrun'⟩
  · rw [hashtableGetsize, hc.assert_ok, ok_bind, hc.size, card_keys hc.nodup hm]
  · rw [hc.vals, List.length_map, hc.length]

/-- A key of one character. -/
def charKey (c : UInt8) (h : 0 ≠ c) : Key := ⟨[c], by simpa using h, by simp⟩

/-- Entries for six letters. -/
def letters : List Kv :=
  [⟨charKey 97 (by decide), 1⟩, ⟨charKey 98 (by decide), 2⟩, ⟨charKey 99 (by decide), 3⟩,
    ⟨charKey 100 (by decide), 4⟩, ⟨charKey 101 (by decide), 5⟩, ⟨charKey 102 (by decide), 6⟩]

/-- The table with the first `n` of them. -/
def lettersTable (n : Nat) : Hashtable :=
  (addAll (hashtableAdd nesting) hashtableCreate (letters.take n)).okD hashtableCreate

/-- The calls that have added them. -/
def lettersTrace (n : Nat) : List (Hashtable × HashOp) :=
  ((letters.take n).mapIdx fun i kv => (lettersTable i, .add kv.key kv.val)).reverse

theorem lettersTable_run :
    HashRun (lettersTrace 5) (lettersTable 5) ∧ HashRun (lettersTrace 6) (lettersTable 6) := by
  have h0 : HashRun (lettersTrace 0) (lettersTable 0) := .init rfl
  have h1 : HashRun (lettersTrace 1) (lettersTable 1) := .step h0 ⟨by decide, 0, rfl⟩
  have h2 : HashRun (lettersTrace 2) (lettersTable 2) := .step h1 ⟨by decide, 0, rfl⟩
  have h3 : HashRun (lettersTrace 3) (lettersTable 3) := .step h2 ⟨by decide, 0, rfl⟩
  have h4 : HashRun (lettersTrace 4) (lettersTable 4) := .step h3 ⟨by decide, 0, rfl⟩
  have h5 : HashRun (lettersTrace 5) (lettersTable 5) := .step h4 ⟨by decide, 0, rfl⟩
  exact ⟨h5, .step h5 ⟨by decide, 0, rfl⟩⟩

/-- Six keys are added, for the fifth of which the array grows.  When one is removed the array
shrinks, and grows again while the others are moved. -/
theorem hashRun_refines_six : ∃ tr h, HashRun tr h ∧
    hashtableFind h (charKey 102 (by decide)) = .ok 6 ∧
    hashtableFind h (charKey 97 (by decide)) = .ok 0 ∧ hashtableGetsize h = .ok 5 := by
  have h₇ := Run.step (a := HashOp.remove (charKey 97 (by decide)))
    lettersTable_run.2 ⟨trivial, 1, rfl⟩
  have hspec := hashRun_refines h₇
  exact ⟨_, _, h₇, (hspec.find _).trans rfl, (hspec.find _).trans rfl, hspec.size.trans rfl⟩

end JinxOS
