import JinxOS.Klib.HashtableMap

/-!
# The entries of the hash table as objects

`klib/hashtable.c` once more, with what the model in `Klib.Hashtable` leaves out.  There a key is a
C string, and an entry is a value like any other.  Here

* keys are whatever `hash` and `key_comparator` make of them (`KvOps`), so that nothing is assumed
  of the bytes of a key or of `keylen`;
* the `kv_pair` objects are counted: those that `kv_create` has allocated, those that `kfree` has
  freed, and those that `hashtable_add` has taken out of a chain and forgotten.

For C strings, the table without the counts is the table of the other model: `KvTable.erase`
commutes with all calls.  The canary of the table, which only the other model has, never changes.
-/

namespace JinxOS

/-- What the code uses of the key of an entry. -/
class KvOps (E : Type) where
  hash : E → Nat
  /-- `key_comparator`. -/
  cmp : E → E → Int

/-- `struct hashtable`, and the number of its `kv_pair` objects. -/
structure KvTable (E : Type) where
  size : Nat
  arraysize : Nat
  vals : List (KList E)
  /-- How many `kv_pair` objects `kv_create` has allocated. -/
  created : Nat
  /-- How many have been freed. -/
  freed : Nat
  /-- How often `removed` was not the null pointer in `hashtable_add`. -/
  dropped : Nat
  deriving DecidableEq

namespace KvTable

/-! ## The code -/

section
variable {E : Type}

/-- `hashtable_create`. -/
def create : KvTable E := ⟨0, minSize, List.replicate minSize listCreate, 0, 0, 0⟩

/-- `kfree`, of an entry. -/
def free (t : KvTable E) : KvTable E := { t with freed := t.freed + 1 }

/-- `cleanup_array_with_lists`. -/
def cleanup : List (KList E) → Except Fault Unit
  | [] => .ok ()
  | chain :: vals => do
    assert "list_isempty(vals[i])" (listIsempty chain)
    cleanup vals

section
variable (add : KvTable E → E → Except Fault (KvTable E))

/-- The loop of `rehash` over the entries of a chain; `add` is `hashtable_add`. -/
def rehashChain : Nat → KvTable E → KList E → Except Fault (KvTable E × KList E)
  | 0, _, _ => .error .diverges
  | fuel + 1, t, chain => do
    match ← listFront chain with
    | none => .ok (t, chain)
    | some item => do
      let t ← add t item
      let chain ← listPopFront chain
      rehashChain fuel t.free chain

/-- The body of the loop of `rehash` over the slots. -/
def rehashSlot (t : KvTable E) (chain : KList E) : Except Fault (KvTable E × KList E) :=
  if 0 < listGetsize chain then do
    let (t, chain) ← rehashChain add loopFuel t chain
    assert "list_getsize(chain) == 0" (listGetsize chain == 0)
    .ok (t, chain)
  else .ok (t, chain)

/-- `rehash`: the new table, and what is left of the old array. -/
def rehash (t : KvTable E) : List (KList E) → Except Fault (KvTable E × List (KList E))
  | [] => .ok (t, [])
  | chain :: source => do
    let (t, chain) ← rehashSlot add t chain
    let (t, source) ← rehash t source
    .ok (t, chain :: source)

/-- The table with a new array. -/
def renew (t : KvTable E) (arraysize : Nat) : KvTable E :=
  { t with size := 0, arraysize := arraysize, vals := List.replicate arraysize listCreate }

/-- The part of `grow` and of `shrink` after the new array has been allocated. -/
def resize (t : KvTable E) (arraysize : Nat) : Except Fault (KvTable E) := do
  let (t', old) ← rehash add (t.renew arraysize) t.vals
  cleanup old
  .ok t'

/-- `grow`: what it returns, and the table. -/
def grow (t : KvTable E) : Except Fault (Nat × KvTable E) :=
  if Word.mul (Word.mul t.arraysize 2) 4 = 0 then .ok (enomem, t)
  else do
    let t ← resize add t (Word.mul t.arraysize 2)
    .ok (0, t)

/-- `shrink`. -/
def shrink (t : KvTable E) : Except Fault (Nat × KvTable E) :=
  if Word.mul (t.arraysize / 2) 4 = 0 then .ok (enomem, t)
  else do
    let t ← resize add t (t.arraysize / 2)
    .ok (0, t)

/-- The test and the call of `grow` in `hashtable_add`. -/
def growIfFull (t : KvTable E) : Except Fault (KvTable E) :=
  if t.arraysize < Word.mul (Word.add t.size 1) lfMultiple then do
    let (_, t) ← grow add t
    .ok t
  else .ok t

/-- The test and the call of `shrink` in `hashtable_remove`. -/
def shrinkIfSparse (t : KvTable E) : Except Fault (KvTable E) :=
  if minSize < t.arraysize ∧ Word.mul (Word.sub t.size 1) lfMultiple < t.arraysize then do
    let (_, t) ← shrink add t
    .ok t
  else .ok t

end

/-- `hashtable_getsize`. -/
def getsize (t : KvTable E) : Nat := t.size

/-- The entries in the chains. -/
def entries (t : KvTable E) : List E := (t.vals.map KList.vals).flatten

theorem entries_eq {t : KvTable E} {bs : List (List E)} (h : t.vals = bs.map KList.of) :
    t.entries = bs.flatten := by
  rw [entries, h, List.map_map]
  exact congrArg List.flatten (List.map_id bs)

variable [KvOps E]

/-- `hash(key, keylen) % arraysize`. -/
def slot (arraysize : Nat) (kv : E) : Nat := KvOps.hash kv % arraysize

/-- The part of `hashtable_add` after the call of `grow`.  The query has the key of the new entry,
and `removed` is not used but for the test. -/
def insert (t : KvTable E) (kv : E) : Except Fault (KvTable E) := do
  let index := slot t.arraysize kv
  let chain ← deref t.vals[index]?
  let (removed, chain) := listRemove chain kv KvOps.cmp
  let chain ← listPushBack chain kv
  .ok { t with
    vals := t.vals.set index chain
    size := if removed.isSome then t.size else Word.add t.size 1
    created := t.created + 1
    dropped := if removed.isSome then t.dropped + 1 else t.dropped }

/-- `hashtable_add`, with calls nested at most `depth` times. -/
def add : Nat → KvTable E → E → Except Fault (KvTable E)
  | 0, _, _ => .error .diverges
  | depth + 1, t, kv => do
    let t ← growIfFull (add depth) t
    insert t kv

/-- `hashtable_find`: the entry whose value it returns. -/
def find (t : KvTable E) (query : E) : Except Fault (Option E) := do
  let chain ← deref t.vals[slot t.arraysize query]?
  .ok (listFind chain query KvOps.cmp)

/-- `hashtable_remove`: the entry whose value it returns, and the table. -/
def remove (t : KvTable E) (query : E) : Except Fault (Option E × KvTable E) := do
  let index := slot t.arraysize query
  let chain ← deref t.vals[index]?
  match listRemove chain query KvOps.cmp with
  | (none, _) => .ok (none, t)
  | (some removed, chain) => do
    let t := { t with vals := t.vals.set index chain, size := Word.sub t.size 1 }
    let t ← shrinkIfSparse (add nesting) t
    .ok (some removed, t.free)

end

end KvTable

/-! ## Calls -/

/-- A call. -/
inductive KvOp (E : Type)
  /-- `hashtable_add`, with the key and the value of an entry. -/
  | add (kv : E)
  /-- `hashtable_find`, with the key of an entry. -/
  | find (query : E)
  /-- `hashtable_remove`. -/
  | remove (query : E)

section
variable {E : Type}

/-- `kmalloc` succeeds: if the array is doubled, the number of its bytes does not wrap around to 0.
-/
def KvOp.Allocates (t : KvTable E) : KvOp E → Prop
  | .add _ => t.arraysize < Word.mul (Word.add t.size 1) lfMultiple →
      Word.mul (Word.mul t.arraysize 2) 4 ≠ 0
  | _ => True

instance KvOp.decidableAllocates (t : KvTable E) : (a : KvOp E) → Decidable (a.Allocates t)
  | .add _ => inferInstanceAs (Decidable (t.arraysize < Word.mul (Word.add t.size 1) lfMultiple →
      Word.mul (Word.mul t.arraysize 2) 4 ≠ 0))
  | .find _ => inferInstanceAs (Decidable True)
  | .remove _ => inferInstanceAs (Decidable True)

variable [KvOps E]

/-- The entry that a call returns, and the table after it. -/
def kvCall (t : KvTable E) : KvOp E → Except Fault (Option E × KvTable E)
  | .add kv => do
    let t ← t.add nesting kv
    .ok (none, t)
  | .find query => do
    let res ← t.find query
    .ok (res, t)
  | .remove query => t.remove query

/-- A run of calls. -/
def KvRun (tr : List (KvTable E × KvOp E)) (t : KvTable E) : Prop :=
  Run (· = KvTable.create) (fun t a t' => a.Allocates t ∧ ∃ res, kvCall t a = .ok (res, t')) tr t

/-- The table after a call that returns. -/
def kvNext (t : KvTable E) (a : KvOp E) : KvTable E := ((kvCall t a).okD (none, t)).2

theorem kvRun_history (ops : List (KvOp E))
    (hreturns : ∀ e ∈ (Run.history kvNext KvTable.create ops).1,
      e.2.Allocates e.1 ∧ (kvCall e.1 e.2).isOk = true) :
    KvRun (Run.history kvNext KvTable.create ops).1 (Run.history kvNext KvTable.create ops).2 := by
  apply Run.of_history kvNext
  · rfl
  · intro e he
    obtain ⟨halloc, hok⟩ := hreturns e he
    exact ⟨halloc, _, Except.eq_ok_okD hok (none, e.1)⟩

/-- A call of `hashtable_add`, the call itself or one that `rehash` makes, finds an entry with the
key of the new one. -/
def Overwrites (t : KvTable E) (a : KvOp E) : Prop :=
  ∃ res t', kvCall t a = .ok (res, t') ∧ t'.dropped ≠ t.dropped

end

/-! ## Without the counts -/

instance Kv.ops : KvOps Kv where
  hash kv := hash kv.key
  cmp := keyComparator

namespace KvTable

/-- The table without the counts. -/
def erase (t : KvTable Kv) : Hashtable := ⟨hashtableType, t.size, t.arraysize, t.vals⟩

theorem erase_size (t : KvTable Kv) : t.erase.size = t.size := rfl

theorem erase_arraysize (t : KvTable Kv) : t.erase.arraysize = t.arraysize := rfl

theorem insert_erase (t : KvTable Kv) (kv : Kv) :
    erase <$> t.insert kv = hashtableInsert t.erase kv.key kv.val := by
  rw [insert, hashtableInsert, map_bind]
  refine bind_congr fun chain => ?_
  -- the comparator does not look at the value of the query
  rw [map_bind]
  rfl

section
variable {add : KvTable Kv → Kv → Except Fault (KvTable Kv)}
  {add' : Hashtable → Key → Nat → Except Fault Hashtable}
  (hadd : ∀ t kv, erase <$> add t kv = add' t.erase kv.key kv.val)
include hadd

theorem rehashChain_erase (fuel : Nat) (t : KvTable Kv) (chain : KList Kv) :
    Prod.map erase id <$> rehashChain add fuel t chain =
      JinxOS.rehashChain add' fuel t.erase chain := by
  induction fuel generalizing t chain with
  | zero => rfl
  | succ fuel ih =>
    rw [rehashChain, JinxOS.rehashChain, map_bind]
    refine bind_congr fun item => ?_
    cases item with
    | none => rfl
    | some item =>
      dsimp only
      rw [← hadd, map_bind, bind_map_left]
      refine bind_congr fun t => ?_
      rw [map_bind]
      exact bind_congr fun chain => ih t.free chain

theorem rehashSlot_erase (t : KvTable Kv) (chain : KList Kv) :
    Prod.map erase id <$> rehashSlot add t chain = JinxOS.rehashSlot add' t.erase chain := by
  rw [rehashSlot, JinxOS.rehashSlot]
  split
  · rw [← rehashChain_erase hadd, map_bind, bind_map_left]
    refine bind_congr ?_
    rintro ⟨t, chain⟩
    exact map_bind ..
  · rfl

theorem rehash_erase (source : List (KList Kv)) (t : KvTable Kv) :
    Prod.map erase id <$> rehash add t source = JinxOS.rehash add' t.erase source := by
  induction source generalizing t with
  | nil => rfl
  | cons chain source ih =>
    rw [rehash, JinxOS.rehash, ← rehashSlot_erase hadd, map_bind, bind_map_left]
    refine bind_congr ?_
    rintro ⟨t, chain⟩
    dsimp only [Prod.map]
    rw [← ih, map_bind, bind_map_left]
    rfl

section
variable (t : KvTable Kv)
include t

theorem resize_erase (arraysize : Nat) :
    erase <$> resize add t arraysize = JinxOS.resize add' t.erase arraysize := by
  have hcleanup : ∀ vals : List (KList Kv), cleanup vals = cleanupArrayWithLists vals := by
    intro vals
    induction vals with
    | nil => rfl
    | cons chain vals ih => rw [cleanup, cleanupArrayWithLists, ih]
  rw [resize, JinxOS.resize]
  change _ = JinxOS.rehash add' (t.renew arraysize).erase t.vals >>= _
  rw [← rehash_erase hadd, map_bind, bind_map_left]
  refine bind_congr ?_
  rintro ⟨t', old⟩
  rw [map_bind, hcleanup]
  rfl

theorem grow_erase : Prod.map id erase <$> grow add t = JinxOS.grow add' t.erase := by
  rw [grow, JinxOS.grow, erase_arraysize]
  split
  · rfl
  · rw [← resize_erase hadd, map_bind, bind_map_left]
    rfl

theorem shrink_erase : Prod.map id erase <$> shrink add t = JinxOS.shrink add' t.erase := by
  rw [shrink, JinxOS.shrink, erase_arraysize]
  split
  · rfl
  · rw [← resize_erase hadd, map_bind, bind_map_left]
    rfl

theorem growIfFull_erase : erase <$> growIfFull add t = JinxOS.growIfFull add' t.erase := by
  rw [growIfFull, JinxOS.growIfFull, erase_size, erase_arraysize]
  split
  · rw [← grow_erase hadd, map_bind, bind_map_left]
    rfl
  · rfl

theorem shrinkIfSparse_erase :
    erase <$> shrinkIfSparse add t = JinxOS.shrinkIfSparse add' t.erase := by
  rw [shrinkIfSparse, JinxOS.shrinkIfSparse, erase_size, erase_arraysize]
  split
  · rw [← shrink_erase hadd, map_bind, bind_map_left]
    rfl
  · rfl

end

end

theorem add_erase (depth : Nat) (t : KvTable Kv) (kv : Kv) :
    erase <$> add depth t kv = hashtableAdd depth t.erase kv.key kv.val := by
  induction depth generalizing t kv with
  | zero => rfl
  | succ depth ih =>
    rw [add, hashtableAdd, ← growIfFull_erase ih, map_bind, bind_map_left]
    exact bind_congr fun t => insert_erase t kv

theorem find_erase (t : KvTable Kv) (query : Kv) :
    (fun res => (res.map Kv.val).getD 0) <$> find t query = hashtableFind t.erase query.key := by
  rw [find, hashtableFind, map_bind]
  refine bind_congr fun chain => ?_
  have hquery : listFind chain query KvOps.cmp = listFind chain ⟨query.key, 0⟩ keyComparator := rfl
  rw [hquery]
  cases listFind chain ⟨query.key, 0⟩ keyComparator with
  | none => rfl
  | some found => rfl

theorem remove_erase (t : KvTable Kv) (query : Kv) :
    Prod.map (fun res => (res.map Kv.val).getD 0) erase <$> remove t query =
      hashtableRemove t.erase query.key := by
  rw [remove, hashtableRemove, map_bind]
  refine bind_congr fun chain => ?_
  have hquery : listRemove chain query KvOps.cmp =
      listRemove chain ⟨query.key, 0⟩ keyComparator := rfl
  rw [hquery]
  obtain ⟨removed, chain⟩ := listRemove chain ⟨query.key, 0⟩ keyComparator
  cases removed with
  | none => rfl
  | some removed =>
    have htable : ({ t.erase with
        vals := t.erase.vals.set (slotOf t.erase.arraysize query.key) chain
        size := Word.sub t.erase.size 1 } : Hashtable) = erase { t with
        vals := t.vals.set (slot t.arraysize query) chain
        size := Word.sub t.size 1 } := rfl
    dsimp only
    rw [map_bind, htable, ← shrinkIfSparse_erase (add_erase nesting), bind_map_left]
    rfl

end KvTable

/-- The call of the other model. -/
def KvOp.erase : KvOp Kv → HashOp
  | .add kv => .add kv.key kv.val
  | .find query => .find query.key
  | .remove query => .remove query.key

/-- **A call does the same in both models.** -/
theorem kvCall_erase (t : KvTable Kv) (a : KvOp Kv) :
    Prod.map (fun res => (res.map Kv.val).getD 0) KvTable.erase <$> kvCall t a =
      hashCall t.erase a.erase := by
  cases a with
  | add kv =>
    change _ = hashtableAdd nesting t.erase kv.key kv.val >>= _
    rw [kvCall, map_bind, ← KvTable.add_erase, bind_map_left]
    rfl
  | find query =>
    change _ = hashtableFind t.erase query.key >>= _
    rw [kvCall, map_bind, ← KvTable.find_erase, bind_map_left]
    rfl
  | remove query => exact KvTable.remove_erase t query

theorem KvRun.erase {tr : List (KvTable Kv × KvOp Kv)} {t : KvTable Kv} (hrun : KvRun tr t) :
    HashRun (tr.map (Prod.map KvTable.erase KvOp.erase)) t.erase := by
  induction hrun with
  | init hinit => exact hinit ▸ .init rfl
  | @step tr t t' a _ hstep ih =>
    obtain ⟨halloc, res, hcall⟩ := hstep
    refine .step ih ⟨?_, (res.map Kv.val).getD 0, ?_⟩
    · cases a with
      | add kv => exact halloc
      | find query => trivial
      | remove query => trivial
    · rw [← kvCall_erase, hcall]
      rfl

end JinxOS
