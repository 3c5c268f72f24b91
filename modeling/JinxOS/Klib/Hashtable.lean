import JinxOS.Klib.List
import JinxOS.Klib.String
import JinxOS.Mem.Mm

/-!
# The hash table

The code of `klib/hashtable.c`.  Keys are C strings, with the length that `strlen` gives; an entry
of the table has a key and a value, which is a pointer, and the slots of the array are lists of
entries. `hashtable_add` calls `grow`, which calls `rehash`, which calls `hashtable_add` for every
entry: the first argument of `hashtableAdd` is how often these calls may be nested.

The array is allocated with `kmalloc`, which returns the null pointer exactly if it is asked for 0
bytes.  The canary of an entry is left out: `kv_create` and the queries are all that make one, and
they set it.
-/

namespace JinxOS

/-! ## Keys -/

/-- A `char`, which is signed, as an `unsigned long`. -/
def signExtend (c : UInt8) : Nat := if c < 128 then c.toNat else 2 ^ 32 - 256 + c.toNat

/-- `hashval = ((hashval << 5) + hashval) + c`. -/
def hashStep (hashval : Nat) (c : UInt8) : Nat :=
  Word.add (Word.add (Word.mul hashval 32) hashval) (signExtend c)

/-- `hash(key, keylen)`, for all characters of the key. -/
def hash (key : Key) : Nat := key.bytes.foldl hashStep 5381

/-! ## Entries -/

/-- `struct kv_pair`. -/
structure Kv where
  /-- `key`, with `keylen`. -/
  key : Key
  val : Nat
  deriving DecidableEq

/-- `key_comparator`. -/
def keyComparator (l r : Kv) : Int :=
  if l.key.strlen = r.key.strlen then strcmp l.key.bytes r.key.bytes
  else wordToInt (Word.sub l.key.strlen r.key.strlen)

/-- `struct hashtable`. -/
structure Hashtable where
  datatype : Nat
  size : Nat
  arraysize : Nat
  vals : List (KList Kv)
  deriving DecidableEq

/-- `HASHTABLETYPE`. -/
def hashtableType : Nat := 4444

/-- `ASSERT_HASHTABLE(h)`. -/
def assertHashtable (h : Hashtable) : Except Fault Unit :=
  assert "h->datatype == HASHTABLETYPE" (h.datatype == hashtableType)

/-- `MIN_SIZE`. -/
def minSize : Nat := 8

/-- `LF_MULTIPLE`. -/
def lfMultiple : Nat := 2

/-- `hash(key, keylen) % arraysize`. -/
def slotOf (arraysize : Nat) (key : Key) : Nat := hash key % arraysize

/-! ## The code -/

/-- `init_array_with_lists(vals, 0, n)`. -/
def initArrayWithLists (n : Nat) : List (KList Kv) := List.replicate n listCreate

/-- `cleanup_array_with_lists`. -/
def cleanupArrayWithLists : List (KList Kv) → Except Fault Unit
  | [] => .ok ()
  | chain :: vals => do
    assert "list_isempty(vals[i])" (listIsempty chain)
    cleanupArrayWithLists vals

/-- `hashtable_create`. -/
def hashtableCreate : Hashtable := ⟨hashtableType, 0, minSize, initArrayWithLists minSize⟩

/-- The part of `hashtable_add` after the call of `grow`. -/
def hashtableInsert (h : Hashtable) (key : Key) (val : Nat) : Except Fault Hashtable := do
  let index := slotOf h.arraysize key
  let chain ← deref h.vals[index]?
  let (removed, chain) := listRemove chain ⟨key, 0⟩ keyComparator
  let chain ← listPushBack chain ⟨key, val⟩
  .ok { h with
    vals := h.vals.set index chain
    size := if removed.isSome then h.size else Word.add h.size 1 }

section
variable (add : Hashtable → Key → Nat → Except Fault Hashtable)

/-- The loop of `rehash` over the entries of a chain; `add` is `hashtable_add`. -/
def rehashChain : Nat → Hashtable → KList Kv → Except Fault (Hashtable × KList Kv)
  | 0, _, _ => .error .diverges
  | fuel + 1, h, chain => do
    match ← listFront chain with
    | none => .ok (h, chain)
    | some item => do
      let h ← add h item.key item.val
      let chain ← listPopFront chain
      rehashChain fuel h chain

/-- The body of the loop of `rehash` over the slots. -/
def rehashSlot (h : Hashtable) (chain : KList Kv) : Except Fault (Hashtable × KList Kv) :=
  if 0 < listGetsize chain then do
    let (h, chain) ← rehashChain add loopFuel h chain
    assert "list_getsize(chain) == 0" (listGetsize chain == 0)
    .ok (h, chain)
  else .ok (h, chain)

/-- The loop of `rehash` over the slots: the new table, and what is left of the old array. -/
def rehash (h : Hashtable) : List (KList Kv) → Except Fault (Hashtable × List (KList Kv))
  | [] => .ok (h, [])
  | chain :: source => do
    let (h, chain) ← rehashSlot add h chain
    let (h, source) ← rehash h source
    .ok (h, chain :: source)

/-- The part of `grow` and of `shrink` after the new array has been allocated. -/
def resize (h : Hashtable) (arraysize : Nat) : Except Fault Hashtable := do
  let h' := { h with size := 0, arraysize := arraysize, vals := initArrayWithLists arraysize }
  -- at the beginning of `rehash`
  assertHashtable h'
  let (h', old) ← rehash add h' h.vals
  cleanupArrayWithLists old
  .ok h'

/-- `grow`: what it returns, and the table. -/
def grow (h : Hashtable) : Except Fault (Nat × Hashtable) := do
  assertHashtable h
  if Word.mul (Word.mul h.arraysize 2) 4 = 0 then .ok (enomem, h)
  else do
    let h ← resize add h (Word.mul h.arraysize 2)
    .ok (0, h)

/-- `shrink`. -/
def shrink (h : Hashtable) : Except Fault (Nat × Hashtable) := do
  assertHashtable h
  if Word.mul (h.arraysize / 2) 4 = 0 then .ok (enomem, h)
  else do
    let h ← resize add h (h.arraysize / 2)
    .ok (0, h)

/-- The test and the call of `grow` in `hashtable_add`. -/
def growIfFull (h : Hashtable) : Except Fault Hashtable :=
  if h.arraysize < Word.mul (Word.add h.size 1) lfMultiple then do
    let (_, h) ← grow add h
    .ok h
  else .ok h

/-- The test and the call of `shrink` in `hashtable_remove`. -/
def shrinkIfSparse (h : Hashtable) : Except Fault Hashtable :=
  if minSize < h.arraysize ∧ Word.mul (Word.sub h.size 1) lfMultiple < h.arraysize then do
    let (_, h) ← shrink add h
    .ok h
  else .ok h

end

/-- `hashtable_add`, with calls nested at most `depth` times. -/
def hashtableAdd : Nat → Hashtable → Key → Nat → Except Fault Hashtable
  | 0, _, _, _ => .error .diverges
  | depth + 1, h, key, val => do
    assertHashtable h
    let h ← growIfFull (hashtableAdd depth) h
    hashtableInsert h key val

/-- How often the calls of `hashtable_add` are nested. -/
def nesting : Nat := 3

/-- `hashtable_find`. -/
def hashtableFind (h : Hashtable) (key : Key) : Except Fault Nat := do
  assertHashtable h
  let chain ← deref h.vals[slotOf h.arraysize key]?
  match listFind chain ⟨key, 0⟩ keyComparator with
  | none => .ok 0
  | some found => .ok found.val

/-- `hashtable_remove`: what it returns, and the table. -/
def hashtableRemove (h : Hashtable) (key : Key) : Except Fault (Nat × Hashtable) := do
  assertHashtable h
  let index := slotOf h.arraysize key
  let chain ← deref h.vals[index]?
  match listRemove chain ⟨key, 0⟩ keyComparator with
  | (none, _) => .ok (0, h)
  | (some removed, chain) => do
    let h := { h with vals := h.vals.set index chain, size := Word.sub h.size 1 }
    let h ← shrinkIfSparse (hashtableAdd nesting) h
    .ok (removed.val, h)

/-- `hashtable_getsize`. -/
def hashtableGetsize (h : Hashtable) : Except Fault Nat := do
  assertHashtable h
  .ok h.size

/-- The loop of `hashtable_assertvalid` over the entries of a chain, each of which is moved to the
end. -/
def checkChain (arraysize i : Nat) : Nat → KList Kv → Except Fault (KList Kv)
  | 0, chain => .ok chain
  | n + 1, chain => do
    let kv ← deref (← listFront chain)
    assert "hash(kv->key, kv->keylen) % h->arraysize == i" (slotOf arraysize kv.key == i)
    let chain ← listPopFront chain
    let chain ← listPushBack chain kv
    checkChain arraysize i n chain

/-- The loop of `hashtable_assertvalid`, from the chain `i` on: the number of entries and the array.
-/
def checkChains (arraysize : Nat) : Nat → Nat → List (KList Kv) →
    Except Fault (Nat × List (KList Kv))
  | _, count, [] => .ok (count, [])
  | i, count, chain :: vals => do
    listAssertvalid chain
    let size := listGetsize chain
    let chain ← checkChain arraysize i size chain
    let (count, vals) ← checkChains arraysize (i + 1) (Word.add count size) vals
    .ok (count, chain :: vals)

/-- `hashtable_assertvalid`: the table after the call. -/
def hashtableAssertvalid (h : Hashtable) : Except Fault Hashtable := do
  assertHashtable h
  let (count, vals) ← checkChains h.arraysize 0 0 h.vals
  assert "count == h->size" (count == h.size)
  .ok { h with vals := vals }

end JinxOS
