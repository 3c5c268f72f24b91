import JinxOS.Cpu

/-!
# Singly linked lists

The code of `klib/list.c`.  The nodes of a list are given by their values, from `head` on, and
`tail` is the last of them; `size` is the field of that name, which the code tests in place of the
pointers. `KList.of` is the list whose `size` is right, and the functions below the code say what
each call makes of such a list.
-/

namespace JinxOS

/-- `struct list`. -/
structure KList (α : Type) where
  /-- The values of the nodes. -/
  vals : List α
  size : Nat
  deriving DecidableEq, Repr

section
variable {α : Type}

/-- `list_create`. -/
def listCreate : KList α := ⟨[], 0⟩

/-- `list_push_back`. -/
def listPushBack (l : KList α) (newval : α) : Except Fault (KList α) :=
  if l.size = 0 then .ok ⟨[newval], Word.add l.size 1⟩
  else match l.vals with
    | [] => .error .nullDeref
    | _ :: _ => .ok ⟨l.vals ++ [newval], Word.add l.size 1⟩

/-- `list_pop_front`. -/
def listPopFront (l : KList α) : Except Fault (KList α) :=
  if l.size = 0 then .ok l
  else match l.vals with
    | [] => .error .nullDeref
    | _ :: vs => .ok ⟨vs, Word.sub l.size 1⟩

/-- `list_front`; the null pointer of an empty list is `none`. -/
def listFront (l : KList α) : Except Fault (Option α) :=
  if l.size = 0 then .ok none
  else match l.vals with
    | [] => .error (.assertFailed "lst->head != NULL")
    | x :: _ => .ok (some x)

/-- `list_find`. -/
def listFind (l : KList α) (query : α) (comparator : α → α → Int) : Option α :=
  l.vals.find? fun x => comparator x query = 0

/-- `list_remove`: the value of the first node that matches, and the list without this node. -/
def listRemove (l : KList α) (query : α) (comparator : α → α → Int) : Option α × KList α :=
  match l.vals.find? fun x => comparator x query = 0 with
  | none => (none, l)
  | some x => (some x, ⟨l.vals.eraseP fun x => comparator x query = 0, Word.sub l.size 1⟩)

/-- `list_isempty`. -/
def listIsempty (l : KList α) : Bool := l.size == 0

/-- `list_getsize`. -/
def listGetsize (l : KList α) : Nat := l.size

/-- `list_assertvalid`. -/
def listAssertvalid (l : KList α) : Except Fault Unit :=
  assert "count == lst->size" (l.vals.length % 2 ^ 32 == l.size)

end

/-! ## Sequences -/

/-- The list with these values. -/
def KList.of {α : Type} (vs : List α) : KList α := ⟨vs, vs.length⟩

section
variable {α : Type} {x : α} {vs : List α}

theorem listPushBack_of (h : vs.length + 1 < 2 ^ 32) (x : α) :
    listPushBack (.of vs) x = .ok (.of (vs ++ [x])) := by
  have hadd : Word.add vs.length 1 = (vs ++ [x]).length := by
    rw [Word.add_eq h, List.length_append]
    rfl
  rw [listPushBack, KList.of, KList.of]
  rw [hadd]
  cases vs with
  | nil => rfl
  | cons y vs => rw [if_neg (by simp)]

theorem listPopFront_of (h : (x :: vs).length < 2 ^ 32) :
    listPopFront (.of (x :: vs)) = .ok (.of vs) := by
  have hsub : Word.sub (x :: vs).length 1 = vs.length := by
    rw [Word.sub_eq (by simp) h, List.length_cons, Nat.add_sub_cancel]
  rw [listPopFront, KList.of, KList.of]
  rw [if_neg (by simp), hsub]

theorem listFront_of (vs : List α) : listFront (.of vs) = .ok vs.head? := by
  cases vs with
  | nil => rfl
  | cons x vs =>
    rw [listFront, if_neg (by simp [KList.of])]
    rfl

theorem listIsempty_of (vs : List α) : listIsempty (.of vs) = vs.isEmpty := by
  cases vs <;> rfl

theorem listRemove_of (h : vs.length < 2 ^ 32) (query : α) (comparator : α → α → Int) :
    listRemove (.of vs) query comparator = (listFind (.of vs) query comparator,
      .of (vs.eraseP fun x => comparator x query = 0)) := by
  rw [listRemove, listFind]
  dsimp only [KList.of]
  cases hf : vs.find? fun x => comparator x query = 0 with
  | none =>
    rw [List.eraseP_of_forall_not fun y hy => List.find?_eq_none.1 hf y hy]
  | some y =>
    have hlen := List.length_eraseP_of_mem (List.mem_of_find?_eq_some hf) (List.find?_some hf)
    have hpos := List.length_pos_of_mem (List.mem_of_find?_eq_some hf)
    rw [hlen, Word.sub_eq hpos h]

theorem listAssertvalid_of (h : vs.length < 2 ^ 32) : listAssertvalid (.of vs) = .ok () := by
  rw [listAssertvalid, KList.of, Nat.mod_eq_of_lt h, beq_self_eq_true, assert_true]

end

end JinxOS
