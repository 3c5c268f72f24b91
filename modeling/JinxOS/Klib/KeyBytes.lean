import JinxOS.Klib.KvLeak

/-!
# Keys with a byte 0 in them

`hash` reads `keylen` bytes of a key.  `key_comparator` compares the lengths and then calls
`strcmp`, which stops at the first byte 0.  For C strings, which is what `hashtable.c` says the keys
are, this is the same. For keys with a byte 0 in them it is not: two keys that differ after such a
byte only (`DifferAfterNul`) compare equal, and have different hash values.  Whether one is found in
place of the other then depends on whether they are in one chain, that is, on `arraysize`.
-/

namespace JinxOS

open Buckets KvTable

/-! ## Any bytes -/

/-- An entry whose key is any bytes.  They are followed by a byte 0. -/
@[ext]
structure RawKv where
  /-- The `keylen` bytes at `key`. -/
  key : List UInt8
  val : Nat
  /-- `keylen` is an `unsigned int`. -/
  length_lt : key.length < 2 ^ 32

namespace RawKv

instance decidableEq : DecidableEq RawKv := fun kv₁ kv₂ =>
  decidable_of_iff (kv₁.key = kv₂.key ∧ kv₁.val = kv₂.val) RawKv.ext_iff.symm

/-- `keylen`. -/
def keylen (kv : RawKv) : Nat := kv.key.length

/-- `hash(key, keylen)`. -/
def hash (kv : RawKv) : Nat := kv.key.foldl hashStep 5381

/-- `key_comparator`. -/
def keyComparator (l r : RawKv) : Int :=
  if l.keylen = r.keylen then strcmp l.key r.key else wordToInt (Word.sub l.keylen r.keylen)

instance ops : KvOps RawKv := ⟨hash, keyComparator⟩

end RawKv

/-- The entry of a C string. -/
def Kv.raw (kv : Kv) : RawKv := ⟨kv.key.bytes, kv.val, kv.key.length_lt⟩

theorem hash_raw (kv : Kv) : kv.raw.hash = hash kv.key := rfl

theorem keyComparator_raw (l r : Kv) : RawKv.keyComparator l.raw r.raw = keyComparator l r := rfl

/-! ## Comparing keys -/

/-- Two strings of the same length agree up to a byte 0, and not after it. -/
def DifferAfterNul (s s' : List UInt8) : Prop :=
  ∃ p t t', s = p ++ 0 :: t ∧ s' = p ++ 0 :: t' ∧ t.length = t'.length ∧ t ≠ t'

theorem DifferAfterNul.ne {s s' : List UInt8} (h : DifferAfterNul s s') : s ≠ s' := by
  obtain ⟨p, t, t', rfl, rfl, -, hne⟩ := h
  intro heq
  exact hne (List.cons.inj (List.append_cancel_left heq)).2

theorem DifferAfterNul.length_eq {s s' : List UInt8} (h : DifferAfterNul s s') :
    s.length = s'.length := by
  obtain ⟨p, t, t', rfl, rfl, hlen, -⟩ := h
  rw [List.length_append, List.length_append, List.length_cons, List.length_cons, hlen]

theorem not_differAfterNul {s s' : List UInt8} (h : 0 ∉ s ∨ 0 ∉ s') : ¬ DifferAfterNul s s' := by
  rintro ⟨p, t, t', rfl, rfl, -⟩
  have hmem : ∀ u : List UInt8, (0 : UInt8) ∈ p ++ 0 :: u := fun u =>
    List.mem_append_right _ List.mem_cons_self
  rcases h with h | h
  · exact h (hmem t)
  · exact h (hmem t')

theorem differAfterNul_cons {c c' : UInt8} {s s' : List UInt8} (hlen : s.length = s'.length) :
    DifferAfterNul (c :: s) (c' :: s') ↔ c = c' ∧ (c = 0 ∧ s ≠ s' ∨ DifferAfterNul s s') := by
  constructor
  · rintro ⟨p, t, t', hs, hs', htlen, hne⟩
    cases p with
    | nil =>
      obtain ⟨rfl, rfl⟩ := List.cons.inj hs
      obtain ⟨rfl, rfl⟩ := List.cons.inj hs'
      exact ⟨rfl, .inl ⟨rfl, hne⟩⟩
    | cons x p =>
      obtain ⟨rfl, rfl⟩ := List.cons.inj hs
      obtain ⟨rfl, rfl⟩ := List.cons.inj hs'
      exact ⟨rfl, .inr ⟨p, t, t', rfl, rfl, htlen, hne⟩⟩
  · rintro ⟨rfl, ⟨rfl, hne⟩ | ⟨p, t, t', rfl, rfl, htlen, hne⟩⟩
    · exact ⟨[], s, s', rfl, rfl, hlen, hne⟩
    · exact ⟨c :: p, t, t', rfl, rfl, htlen, hne⟩

/-- **`strcmp` does not see what is after a byte 0.** -/
theorem strcmp_eq_zero_iff {s1 s2 : List UInt8} (hlen : s1.length = s2.length) :
    strcmp s1 s2 = 0 ↔ s1 = s2 ∨ DifferAfterNul s1 s2 := by
  induction s1 generalizing s2 with
  | nil =>
    obtain rfl := List.length_eq_zero_iff.1 hlen.symm
    exact iff_of_true rfl (.inl rfl)
  | cons c s1 ih =>
    cases s2 with
    | nil => exact absurd hlen (Nat.succ_ne_zero _)
    | cons c' s2 =>
      have hrest : s1.length = s2.length := Nat.succ.inj hlen
      rw [strcmp, List.headD_cons, List.tail_cons, differAfterNul_cons hrest, List.cons.injEq]
      by_cases hc : c = c'
      · subst hc
        rw [if_pos rfl]
        by_cases hzero : c = 0
        · rw [if_pos hzero]
          exact iff_of_true rfl ((em (s1 = s2)).imp (fun heq => ⟨rfl, heq⟩)
            fun hne => ⟨rfl, .inl ⟨hzero, hne⟩⟩)
        · rw [if_neg hzero, ih hrest]
          simp only [true_and, hzero, false_and, false_or]
      · rw [if_neg hc]
        refine iff_of_false ?_ (not_or.2 ⟨fun h => hc h.1, fun h => hc h.1⟩)
        split <;> decide

/-- **When `key_comparator` returns 0.** -/
theorem RawKv.keyComparator_eq_zero (l r : RawKv) :
    keyComparator l r = 0 ↔ l.key = r.key ∨ DifferAfterNul l.key r.key := by
  have hl := l.length_lt
  have hr := r.length_lt
  rw [keyComparator]
  by_cases hlen : l.keylen = r.keylen
  · rw [if_pos hlen, strcmp_eq_zero_iff hlen]
  · rw [if_neg hlen]
    refine iff_of_false ?_ (not_or.2 ⟨fun heq => hlen (congrArg List.length heq),
      fun hdiff => hlen hdiff.length_eq⟩)
    rw [keylen, keylen] at hlen ⊢
    rw [wordToInt, Word.sub]
    split <;> omega

/-! ## Finding keys -/

/-- What the calls find in the chain of a key is the entry with its bytes. -/
structure Finds (t : KvTable RawKv) (query : RawKv) (res : Option RawKv) : Prop where
  /-- `hashtable_find`. -/
  find : t.find query = .ok res
  /-- `hashtable_remove`. -/
  remove : ∃ t', t.remove query = .ok (res, t')
  /-- `hashtable_add`, after the array has grown. -/
  insert : ∃ t', t.insert query = .ok t' ∧ (t'.dropped = t.dropped ↔ res = none)
  /-- The entry has the bytes of the key. -/
  found : ∀ kv, res = some kv → kv ∈ t.entries ∧ kv.key = query.key
  /-- If there is none, no entry of the table has. -/
  absent : res = none → ∀ kv ∈ t.entries, kv.key ≠ query.key

theorem KvTable.KvInv.finds {r : Nat} {t : KvTable RawKv} (hi : KvInv r t) (query : RawKv)
    (hdiff : ∀ kv ∈ t.entries, ¬ DifferAfterNul kv.key query.key) : ∃ res, Finds t query res := by
  obtain ⟨res, t', hremove, hfind, -⟩ := remove_ok hi query
  obtain ⟨bs, hc⟩ := hi
  obtain ⟨b, hb, hchain⟩ := hc.exists_chain query
  rw [entries_eq hc.vals] at hdiff
  have hcmp : ∀ kv ∈ bs.flatten, (KvOps.cmp kv query = 0 ↔ kv.key = query.key) := fun kv hkv =>
    (RawKv.keyComparator_eq_zero kv query).trans (or_iff_left (hdiff kv hkv))
  have hsub : ∀ kv ∈ b, kv ∈ bs.flatten := fun kv hkv =>
    List.mem_flatten.2 ⟨b, List.mem_of_getElem? hb, hkv⟩
  have hres : b.find? (fun x => KvOps.cmp x query = 0) = res :=
    Except.ok.inj ((find_eq hchain).symm.trans hfind)
  refine ⟨res, hfind, ⟨t', hremove⟩, ⟨_, hc.insert_eq hb hchain, ?_⟩, fun kv hkv => ?_,
    fun hnone kv hkv heq => ?_⟩
  · dsimp only
    rw [hres]
    cases res with
    | none => exact iff_of_true rfl rfl
    | some kv => exact iff_of_false (Nat.succ_ne_self _) nofun
  · rw [hkv] at hres
    have hmem := hsub kv (List.mem_of_find?_eq_some hres)
    rw [entries_eq hc.vals]
    exact ⟨hmem, (hcmp kv hmem).1 (by simpa using List.find?_some hres)⟩
  · rw [entries_eq hc.vals] at hkv
    -- the entry is in the same chain, since it has the same hash value
    have hslot : slot t.arraysize kv = slot t.arraysize query := by
      change RawKv.hash kv % _ = RawKv.hash query % _
      rw [RawKv.hash, RawKv.hash, heq]
    have hmem : kv ∈ b := (hc.placed.mem_iff (hslot ▸ hb)).1 hkv
    rw [hnone] at hres
    have hne := List.find?_eq_none.1 hres kv hmem
    exact hne (decide_eq_true ((hcmp kv hkv).2 heq))

/-- **Keys and their hash values agree but for keys that differ after a byte 0.**  `key_comparator`
returns 0 for equal bytes only, unless two keys differ after a byte 0, which cannot be if one is a C
string; equal bytes have equal hash values.  In all tables that calls lead to, and in the middle of
a call, whatever `arraysize` is, the calls find the entry with the bytes of the key, if no key of
the table differs from it in that way. -/
theorem keys_agree_iff :
    (∀ l r : RawKv, (RawKv.keyComparator l r = 0 ↔ l.key = r.key) ↔ ¬ DifferAfterNul l.key r.key) ∧
    (∀ l r : RawKv, l.key = r.key → RawKv.hash l = RawKv.hash r) ∧
    (∀ s s' : List UInt8, 0 ∉ s ∨ 0 ∉ s' → ¬ DifferAfterNul s s') ∧
    (∀ (tr : List (KvTable RawKv × KvOp RawKv)) (t : KvTable RawKv), KvRun tr t → KvInv 0 t) ∧
    ∀ (r : Nat) (t : KvTable RawKv), KvInv r t → ∀ query : RawKv,
      (∀ kv ∈ t.entries, ¬ DifferAfterNul kv.key query.key) → ∃ res, Finds t query res := by
  refine ⟨fun l r => ?_, fun l r heq => ?_, fun s s' hs => not_differAfterNul hs,
    fun tr t hrun => hrun.inv, fun r t hi query hdiff => hi.finds query hdiff⟩
  · rw [RawKv.keyComparator_eq_zero]
    constructor
    · exact fun hiff hdiff => hdiff.ne (hiff.1 (.inr hdiff))
    · exact fun hno => or_iff_left hno
  · rw [RawKv.hash, RawKv.hash, heq]

/-- Two keys, one of them with a byte 0; the other one is found. -/
theorem keys_agree_iff_two : ∃ (tr : List (KvTable RawKv × KvOp RawKv)) (t : KvTable RawKv),
    KvRun tr t ∧ Finds t ⟨[98], 0, by decide⟩ (some ⟨[98], 2, by decide⟩) := by
  have hrun := kvRun_history
    [.add (⟨[97, 0, 98], 1, by decide⟩ : RawKv), .add ⟨[98], 2, by decide⟩] (by decide +kernel)
  obtain ⟨-, -, hstring, hinv, hfinds⟩ := keys_agree_iff
  obtain ⟨res, hres⟩ := hfinds 0 _ (hinv _ _ hrun) ⟨[98], 0, by decide⟩ fun kv _ =>
    hstring _ _ (.inr (by decide))
  have hfind : (Run.history kvNext KvTable.create
      [.add (⟨[97, 0, 98], 1, by decide⟩ : RawKv), .add ⟨[98], 2, by decide⟩]).2.find
      ⟨[98], 0, by decide⟩ = .ok (some ⟨[98], 2, by decide⟩) := by decide +kernel
  obtain rfl := Except.ok.inj (hres.find.symm.trans hfind)
  exact ⟨_, _, hrun, hres⟩

/-- **Two keys that differ after a byte 0** compare equal, and have different hash values: with 8
slots one is found in place of the other, with 16 slots it is not. -/
theorem not_keys_agree_nul : ∃ l r : RawKv, l.key ≠ r.key ∧ RawKv.keyComparator l r = 0 ∧
    RawKv.hash l ≠ RawKv.hash r ∧
    (∃ (tr : List (KvTable RawKv × KvOp RawKv)) (t : KvTable RawKv), KvRun tr t ∧ t.arraysize = 8 ∧
      t.find r = .ok (some l)) ∧
    ∃ (tr : List (KvTable RawKv × KvOp RawKv)) (t : KvTable RawKv), KvRun tr t ∧ t.arraysize = 16 ∧
      l ∈ t.entries ∧ t.find r = .ok none := by
  have hsmall := kvRun_history [.add (⟨[97, 0, 98], 1, by decide⟩ : RawKv)] (by decide +kernel)
  have hlarge := kvRun_history
    [.add (⟨[97, 0, 98], 1, by decide⟩ : RawKv), .add ⟨[98], 2, by decide⟩,
      .add ⟨[99], 3, by decide⟩, .add ⟨[100], 4, by decide⟩,
      .add ⟨[101], 5, by decide⟩] (by decide +kernel)
  refine ⟨⟨[97, 0, 98], 1, by decide⟩, ⟨[97, 0, 106], 0, by decide⟩, by decide, by decide +kernel,
    by decide +kernel, ⟨_, _, hsmall, ?_, ?_⟩, _, _, hlarge, ?_, ?_, ?_⟩ <;> decide +kernel

end JinxOS
