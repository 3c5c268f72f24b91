import JinxOS.Cpu

/-!
# Bitmaps

The code of `klib/bitmap.c`, over the bytes of the bitmap.  What a bitmap stands for is the set of
the numbers whose bit is set (`Bitmap.has`); the bits of the last byte past the end are set for good
(`Bitmap.Wf`), so that `bitmap_alloc` never finds one of them.

Every operation has one lemma that says what it does to the set: `bitmapCreate_ok`,
`bitmapAlloc_cases`, `bitmapMark_ok`, `bitmapUnmark_ok`, `bitmapIsset_ok`.
-/

namespace JinxOS

/-- `struct bitmap`. -/
structure Bitmap where
  bits : Nat
  bytes : List (BitVec 8)
  deriving DecidableEq, Repr

/-- `DIVROUNDUP(a, b)`. -/
def divRoundUp (a b : Nat) : Nat := Word.sub (Word.add a b) 1 / b

/-- `(uint8_t) 1 << n`. -/
def bitMask (n : Nat) : BitVec 8 := 1#8 <<< n

namespace Bitmap

/-- `b->bytes[i]`. -/
def byte (b : Bitmap) (i : Nat) : BitVec 8 := b.bytes.getD i 0#8

/-- An assignment to `b->bytes[i]`. -/
def setByte (b : Bitmap) (i : Nat) (x : BitVec 8) : Bitmap := { b with bytes := b.bytes.set i x }

end Bitmap

/-- `bitmap_create`.  `kmalloc` returns the null pointer for no bytes, and is taken to succeed
otherwise. -/
def bitmapCreate (bits : Nat) : Except Fault (Option Bitmap) := do
  let bytes := divRoundUp bits 8
  if bytes = 0 then .ok none
  else
    let b : Bitmap := ⟨bits, List.replicate bytes 0#8⟩
    if bits >>> 3 < bytes then do
      let i := bytes - 1
      assert "bits >> 3 == i" (bits >>> 3 == i)
      let extra := Word.sub bits (i <<< 3)
      assert "extra > 0 && extra < 8" (decide (0 < extra ∧ extra < 8))
      .ok (some (b.setByte i ((List.range' extra (8 - extra)).foldl
        (fun x j => x ||| bitMask j) (b.byte i))))
    else .ok (some b)

/-- The inner loop of `bitmap_alloc`: the first bit of a byte that is not set, from bit `n` on. -/
def clearBit (x : BitVec 8) : Nat → Nat → Option Nat
  | 0, _ => none
  | k + 1, n => if x &&& bitMask n = 0#8 then some n else clearBit x k (n + 1)

/-- The loop of `bitmap_alloc`, from byte `i` on; `none` is `ENOSPC`. -/
def bitmapAllocFrom (b : Bitmap) : Nat → Nat → Except Fault (Option Nat × Bitmap)
  | 0, _ => .ok (none, b)
  | k + 1, i =>
    if b.byte i = 0xFF#8 then bitmapAllocFrom b k (i + 1)
    else match clearBit (b.byte i) 8 0 with
      | none => .error (.panic "bitmap internal error")
      | some n => do
        let idx := (i <<< 3) + n
        assert "*idx < b->bits" (decide (idx < b.bits))
        .ok (some idx, b.setByte i (b.byte i ||| bitMask n))

/-- `bitmap_alloc`. -/
def bitmapAlloc (b : Bitmap) : Except Fault (Option Nat × Bitmap) :=
  bitmapAllocFrom b (divRoundUp b.bits 8) 0

/-- `bitmap_translate`. -/
def bitmapTranslate (bit : Nat) : Nat × BitVec 8 := (bit >>> 3, bitMask (bit % 8))

/-- `bitmap_mark`. -/
def bitmapMark (b : Bitmap) (idx : Nat) : Except Fault Bitmap := do
  assert "idx < b->bits" (decide (idx < b.bits))
  let (i, msk) := bitmapTranslate idx
  assert "(b->bytes[i] & msk) == 0" (b.byte i &&& msk == 0#8)
  .ok (b.setByte i (b.byte i ||| msk))

/-- `bitmap_unmark`. -/
def bitmapUnmark (b : Bitmap) (idx : Nat) : Except Fault Bitmap := do
  assert "idx < b->bits" (decide (idx < b.bits))
  let (i, msk) := bitmapTranslate idx
  assert "(b->bytes[i] & msk) != 0" (b.byte i &&& msk != 0#8)
  .ok (b.setByte i (b.byte i &&& ~~~ msk))

/-- `bitmap_isset`. -/
def bitmapIsset (b : Bitmap) (idx : Nat) : Except Fault Bool := do
  assert "idx < b->bits" (decide (idx < b.bits))
  let (i, msk) := bitmapTranslate idx
  .ok (b.byte i &&& msk != 0#8)

/-! ## The set of a bitmap -/

namespace Bitmap

/-- The bit is set. -/
def has (b : Bitmap) (k : Nat) : Bool := (b.byte (k / 8)).getLsbD (k % 8)

/-- The bitmap with a bit set. -/
def mark (b : Bitmap) (k : Nat) : Bitmap := b.setByte (k / 8) (b.byte (k / 8) ||| bitMask (k % 8))

/-- The bitmap with a bit cleared. -/
def unmark (b : Bitmap) (k : Nat) : Bitmap :=
  b.setByte (k / 8) (b.byte (k / 8) &&& ~~~ bitMask (k % 8))

/-- All bits are set. -/
def Full (b : Bitmap) : Prop := ∀ k, k < b.bits → b.has k = true

/-- At least `n` bits are not set. -/
def Free (b : Bitmap) (n : Nat) : Prop :=
  ∃ l : List Nat, l.Nodup ∧ l.length = n ∧ ∀ k ∈ l, k < b.bits ∧ b.has k = false

/-- What `bitmap_create` establishes. -/
structure Wf (b : Bitmap) : Prop where
  bits_le : b.bits ≤ 2 ^ 32 - 8
  length : b.bytes.length = (b.bits + 7) / 8
  extra : ∀ k, b.bits ≤ k → k < 8 * b.bytes.length → b.has k = true

end Bitmap

theorem divRoundUp_eq {a : Nat} (h : a ≤ 2 ^ 32 - 8) : divRoundUp a 8 = (a + 7) / 8 := by
  rw [divRoundUp, Word.add, Word.sub]
  omega

theorem getLsbD_bitMask {n : Nat} (hn : n < 8) (k : Nat) :
    (bitMask n).getLsbD k = decide (n = k) := by
  rw [bitMask, ← BitVec.twoPow_eq, BitVec.getLsbD_twoPow, decide_eq_true hn, Bool.true_and]

theorem and_bitMask {n : Nat} (hn : n < 8) (x : BitVec 8) :
    x &&& bitMask n = 0#8 ↔ x.getLsbD n = false := by
  constructor
  · intro h
    have hbit := congrArg (fun y => y.getLsbD n) h
    simpa [getLsbD_bitMask hn] using hbit
  · intro h
    refine BitVec.eq_of_getLsbD_eq fun k _ => ?_
    rw [BitVec.getLsbD_and, getLsbD_bitMask hn, BitVec.getLsbD_zero]
    by_cases hk : n = k
    · rw [← hk, h, Bool.false_and]
    · rw [decide_eq_false hk, Bool.and_false]

namespace Bitmap

variable {b : Bitmap} {k l i : Nat}

@[simp] theorem bits_setByte (x : BitVec 8) : (b.setByte i x).bits = b.bits := rfl

@[simp] theorem length_setByte (x : BitVec 8) : (b.setByte i x).bytes.length = b.bytes.length :=
  List.length_set

theorem byte_setByte (x : BitVec 8) (hi : i < b.bytes.length) (j : Nat) :
    (b.setByte i x).byte j = if i = j then x else b.byte j := by
  rw [byte, setByte, byte, List.getD_eq_getElem?_getD, List.getD_eq_getElem?_getD,
    List.getElem?_set]
  split <;> rfl

theorem has_setByte (x : BitVec 8) (hi : i < b.bytes.length) :
    (b.setByte i x).has k = if i = k / 8 then x.getLsbD (k % 8) else b.has k := by
  rw [has, byte_setByte x hi]
  split <;> rfl

theorem has_of_length_le (hk : 8 * b.bytes.length ≤ k) : b.has k = false := by
  rw [has, byte, List.getD_eq_default _ _ (by omega), BitVec.getLsbD_zero]

theorem has_mark (hk : k < 8 * b.bytes.length) :
    (b.mark k).has l = (b.has l || decide (k = l)) := by
  rw [mark, has_setByte _ (by omega)]
  split
  · next hdiv =>
    rw [BitVec.getLsbD_or, getLsbD_bitMask (Nat.mod_lt k (by decide)), has, hdiv]
    congr 1
    exact decide_eq_decide.2 (by omega)
  · rw [decide_eq_false (by rintro rfl; omega), Bool.or_false]

theorem has_unmark (hk : k < 8 * b.bytes.length) :
    (b.unmark k).has l = (b.has l && !decide (k = l)) := by
  rw [unmark, has_setByte _ (by omega)]
  split
  · next hdiv =>
    rw [BitVec.getLsbD_and, BitVec.getLsbD_not, decide_eq_true (Nat.mod_lt l (by decide)),
      getLsbD_bitMask (Nat.mod_lt k (by decide)), has, hdiv, Bool.true_and]
    congr 2
    exact decide_eq_decide.2 (by omega)
  · rw [decide_eq_false (by rintro rfl; omega), Bool.not_false, Bool.and_true]

theorem Free.not_full {n : Nat} (h : b.Free (n + 1)) : ¬ b.Full := by
  obtain ⟨l, -, hlen, hl⟩ := h
  obtain ⟨k, l', rfl⟩ := List.exists_cons_of_length_eq_add_one hlen
  obtain ⟨hlt, hclear⟩ := hl k List.mem_cons_self
  intro hfull
  rw [hfull k hlt] at hclear
  exact nomatch hclear

theorem Free.of_marked {b' : Bitmap} {n m : Nat} (h : b.Free (n + 1)) (hbits : b'.bits = b.bits)
    (hm : ∀ k, b'.has k = true → b.has k = true ∨ k = m) : b'.Free n := by
  obtain ⟨l, hnodup, hlen, hl⟩ := h
  have hlong : n ≤ (l.erase m).length := by
    have := List.le_length_erase (a := m) (l := l)
    omega
  refine ⟨(l.erase m).take n, (hnodup.erase m).sublist (List.take_sublist ..),
    List.length_take_of_le hlong, fun k hk => ?_⟩
  obtain ⟨hne, hmem⟩ := hnodup.mem_erase_iff.1 (List.mem_of_mem_take hk)
  obtain ⟨hlt, hclear⟩ := hl k hmem
  refine ⟨hbits ▸ hlt, ?_⟩
  by_contra hset
  rcases hm k (by simpa using hset) with hset | hkm
  · rw [hset] at hclear
    exact nomatch hclear
  · exact hne hkm

theorem Wf.lt (h : b.Wf) (hk : k < b.bits) : k < 8 * b.bytes.length := by
  have := h.length
  omega

theorem Wf.mark (h : b.Wf) (hk : k < b.bits) : (b.mark k).Wf where
  bits_le := h.bits_le
  length := (length_setByte _).trans h.length
  extra l hl hlt := by
    rw [has_mark (h.lt hk), h.extra l hl (by simpa [Bitmap.mark] using hlt), Bool.true_or]

theorem Wf.unmark (h : b.Wf) (hk : k < b.bits) : (b.unmark k).Wf where
  bits_le := h.bits_le
  length := (length_setByte _).trans h.length
  extra l hl hlt := by
    have hne : k ≠ l := by
      have hl : b.bits ≤ l := hl
      omega
    rw [has_unmark (h.lt hk), h.extra l hl (by simpa [Bitmap.unmark] using hlt),
      decide_eq_false hne]
    rfl

end Bitmap

/-! ## The operations -/

section
variable {b : Bitmap} {k : Nat}

theorem getLsbD_foldl_bitMask : ∀ {n e : Nat} (x : BitVec 8) (k : Nat), e + n ≤ 8 →
    ((List.range' e n).foldl (fun x j => x ||| bitMask j) x).getLsbD k =
      (x.getLsbD k || decide (e ≤ k ∧ k < e + n)) := by
  intro n
  induction n with
  | zero =>
    intro e x k _
    rw [decide_eq_false (by omega), Bool.or_false]
    rfl
  | succ n ih =>
    intro e x k he
    rw [List.range'_succ, List.foldl_cons, ih _ _ (by omega), BitVec.getLsbD_or,
      getLsbD_bitMask (by omega), Bool.or_assoc, ← Bool.decide_or]
    congr 1
    exact decide_eq_decide.2 (by omega)

theorem has_replicate (bits n k : Nat) : (⟨bits, List.replicate n 0#8⟩ : Bitmap).has k = false := by
  rw [Bitmap.has, Bitmap.byte, List.getD_eq_getElem?_getD, List.getElem?_replicate]
  split <;> simp

/-- **`bitmap_create`** makes an empty set. -/
theorem bitmapCreate_ok {bits : Nat} (hpos : 0 < bits) (hle : bits ≤ 2 ^ 32 - 8) :
    ∃ b, bitmapCreate bits = .ok (some b) ∧ b.Wf ∧ b.bits = bits ∧
      ∀ k, k < bits → b.has k = false := by
  have hlen : divRoundUp bits 8 = (bits + 7) / 8 := divRoundUp_eq hle
  have hshift : bits >>> 3 = bits / 8 := Nat.shiftRight_eq_div_pow ..
  simp only [bitmapCreate, hlen, hshift]
  rw [if_neg (by omega)]
  by_cases hextra : bits / 8 < (bits + 7) / 8
  · have hi : (bits + 7) / 8 - 1 = bits / 8 := by omega
    have hsub : Word.sub bits ((bits / 8) <<< 3) = bits % 8 := by
      rw [Nat.shiftLeft_eq, Word.sub_eq]
      omega
    have hmod : 0 < bits % 8 ∧ bits % 8 < 8 := by omega
    rw [if_pos hextra, hi, hsub, beq_self_eq_true, decide_eq_true hmod, assert_true, assert_true]
    have hbyte : bits / 8 < (⟨bits, List.replicate ((bits + 7) / 8) 0#8⟩ :
        Bitmap).bytes.length := by
      simpa using hextra
    have hhas : ∀ k, ((⟨bits, List.replicate ((bits + 7) / 8) 0#8⟩ : Bitmap).setByte (bits / 8)
        ((List.range' (bits % 8) (8 - bits % 8)).foldl (fun x j => x ||| bitMask j)
          ((⟨bits, List.replicate ((bits + 7) / 8) 0#8⟩ : Bitmap).byte (bits / 8)))).has k =
        decide (bits / 8 = k / 8 ∧ bits % 8 ≤ k % 8) := by
      intro k
      have hzero := has_replicate bits ((bits + 7) / 8) k
      rw [Bitmap.has_setByte _ hbyte]
      split
      · next hk =>
        rw [getLsbD_foldl_bitMask _ _ (by omega), hk]
        rw [Bitmap.has] at hzero
        rw [hzero, Bool.false_or]
        exact decide_eq_decide.2 (by omega)
      · next hk => rw [hzero, decide_eq_false (fun he => hk he.1)]
    refine ⟨_, rfl, ⟨hle, by simp, fun k hk hlt => ?_⟩, rfl, fun k hk => ?_⟩
    · have hk : bits ≤ k := hk
      have hlt : k < 8 * ((bits + 7) / 8) := by simpa using hlt
      rw [hhas, decide_eq_true (by omega)]
    · rw [hhas, decide_eq_false (by omega)]
  · rw [if_neg hextra]
    refine ⟨_, rfl, ⟨hle, by simp, fun k hk hlt => ?_⟩, rfl, fun k _ => has_replicate ..⟩
    have hk : bits ≤ k := hk
    have hlt : k < 8 * ((bits + 7) / 8) := by simpa using hlt
    omega

theorem bitmapCreate_wf {bits : Nat} {b : Bitmap} (hlt : bits < 2 ^ 32)
    (h : bitmapCreate bits = .ok (some b)) : b.Wf := by
  by_cases hbits : 0 < bits ∧ bits ≤ 2 ^ 32 - 8
  · obtain ⟨b', hb', hwf, -⟩ := bitmapCreate_ok hbits.1 hbits.2
    rw [hb'] at h
    exact Option.some.inj (Except.ok.inj h) ▸ hwf
  · have hzero : divRoundUp bits 8 = 0 := by
      rw [divRoundUp, Word.add, Word.sub]
      omega
    rw [bitmapCreate] at h
    simp [hzero] at h

theorem clearBit_some {x : BitVec 8} : ∀ {f n m : Nat}, f + n = 8 → clearBit x f n = some m →
    m < 8 ∧ x.getLsbD m = false ∧ ∀ j, n ≤ j → j < m → x.getLsbD j = true := by
  intro f
  induction f with
  | zero => intro n m _ h; simp [clearBit] at h
  | succ f ih =>
    intro n m hf h
    rw [clearBit] at h
    split at h
    · next hclear =>
      obtain rfl : n = m := Option.some.inj h
      exact ⟨by omega, (and_bitMask (by omega) x).1 hclear, fun j hj hlt => absurd hlt (by omega)⟩
    · next hset =>
      obtain ⟨hm, hbit, hleast⟩ := ih (by omega) h
      refine ⟨hm, hbit, fun j hj hlt => ?_⟩
      by_cases hjn : j = n
      · subst hjn
        rw [and_bitMask (by omega)] at hset
        simpa using hset
      · exact hleast j (by omega) hlt

theorem clearBit_none {x : BitVec 8} : ∀ {f n : Nat}, f + n = 8 → clearBit x f n = none →
    ∀ j, n ≤ j → j < 8 → x.getLsbD j = true := by
  intro f
  induction f with
  | zero => intro n hn _ j hj hlt; omega
  | succ f ih =>
    intro n hf h j hj hlt
    rw [clearBit] at h
    split at h
    · exact nomatch h
    · next hset =>
      by_cases hjn : j = n
      · subst hjn
        rw [and_bitMask (by omega)] at hset
        simpa using hset
      · exact ih (by omega) h j (by omega) hlt

theorem bitmapAllocFrom_cases (h : b.Wf) : ∀ {f i : Nat}, f + i = b.bytes.length →
    (bitmapAllocFrom b f i = .ok (none, b) ∧
      ∀ k, 8 * i ≤ k → k < 8 * b.bytes.length → b.has k = true) ∨
    ∃ k, bitmapAllocFrom b f i = .ok (some k, b.mark k) ∧ k < b.bits ∧ b.has k = false ∧
      ∀ l, 8 * i ≤ l → l < k → b.has l = true := by
  intro f
  induction f with
  | zero => exact fun hi => .inl ⟨rfl, fun k hk hlt => by omega⟩
  | succ f ih =>
    intro i hi
    rw [bitmapAllocFrom]
    split
    · next hfull =>
      have hbyte : ∀ l, 8 * i ≤ l → l < 8 * (i + 1) → b.has l = true := by
        intro l hl hlt
        rw [Bitmap.has, show l / 8 = i by omega, hfull]
        have hmod : l % 8 < 8 := Nat.mod_lt l (by decide)
        generalize l % 8 = r at hmod
        decide +revert
      rcases ih (i := i + 1) (by omega) with ⟨hrun, hall⟩ | ⟨k, hrun, hk, hclear, hleast⟩
      · refine .inl ⟨hrun, fun k hk hlt => ?_⟩
        by_cases hki : k < 8 * (i + 1)
        · exact hbyte k hk hki
        · exact hall k (by omega) hlt
      · refine .inr ⟨k, hrun, hk, hclear, fun l hl hlt => ?_⟩
        by_cases hki : l < 8 * (i + 1)
        · exact hbyte l hl hki
        · exact hleast l (by omega) hlt
    · next hfull =>
      cases hfind : clearBit (b.byte i) 8 0 with
      | none =>
        refine absurd (BitVec.eq_of_getLsbD_eq fun j hj => ?_) hfull
        rw [clearBit_none rfl hfind j (Nat.zero_le j) hj]
        decide +revert
      | some n =>
        obtain ⟨hn, hclear, hleast⟩ := clearBit_some rfl hfind
        have hdiv : (8 * i + n) / 8 = i := by omega
        have hmod : (8 * i + n) % 8 = n := by omega
        have hhas : b.has (8 * i + n) = false := by rw [Bitmap.has, hdiv, hmod, hclear]
        have hlt : 8 * i + n < b.bits := by
          by_contra hge
          rw [h.extra _ (by omega) (by omega)] at hhas
          exact nomatch hhas
        refine .inr ⟨8 * i + n, ?_, hlt, hhas, fun l hl hlt => ?_⟩
        · dsimp only
          rw [Nat.shiftLeft_eq, Nat.mul_comm i, decide_eq_true (by simpa using hlt), assert_true,
            ok_bind, Bitmap.mark, hdiv, hmod]
        · rw [Bitmap.has, show l / 8 = i by omega]
          exact hleast _ (Nat.zero_le _) (by omega)

/-- **`bitmap_alloc`** marks the least number that is not marked, or there is none. -/
theorem bitmapAlloc_cases (h : b.Wf) :
    (bitmapAlloc b = .ok (none, b) ∧ b.Full) ∨
    ∃ k, bitmapAlloc b = .ok (some k, b.mark k) ∧ k < b.bits ∧ b.has k = false ∧
      ∀ l, l < k → b.has l = true := by
  have hle := h.bits_le
  have hlen : divRoundUp b.bits 8 = b.bytes.length := by
    rw [divRoundUp_eq hle, h.length]
  rw [bitmapAlloc, hlen]
  rcases bitmapAllocFrom_cases h (i := 0) rfl with
    ⟨hrun, hall⟩ | ⟨k, hrun, hk, hclear, hleast⟩
  · exact .inl ⟨hrun, fun k hk => hall k (Nat.zero_le _) (h.lt hk)⟩
  · exact .inr ⟨k, hrun, hk, hclear, fun l hl => hleast l (Nat.zero_le _) hl⟩

theorem bitmapTranslate_eq (k : Nat) : bitmapTranslate k = (k / 8, bitMask (k % 8)) := by
  rw [bitmapTranslate, Nat.shiftRight_eq_div_pow]

theorem byte_and_bitMask (b : Bitmap) (k : Nat) :
    (b.byte (k / 8) &&& bitMask (k % 8) == 0#8) = !b.has k := by
  have h := and_bitMask (Nat.mod_lt k (by decide : 0 < 8)) (b.byte (k / 8))
  rw [Bitmap.has]
  cases hbit : (b.byte (k / 8)).getLsbD (k % 8) with
  | false => simpa using h.2 hbit
  | true => simp [h, hbit]

theorem bitmapMark_ok (hk : k < b.bits) (hclear : b.has k = false) :
    bitmapMark b k = .ok (b.mark k) := by
  rw [bitmapMark, decide_eq_true hk, assert_true, ok_bind, bitmapTranslate_eq]
  dsimp only
  rw [byte_and_bitMask, hclear, Bool.not_false, assert_true, ok_bind]
  rfl

theorem bitmapMark_inv {b' : Bitmap} (h : bitmapMark b k = .ok b') :
    k < b.bits ∧ b' = b.mark k := by
  obtain ⟨_, hk, h⟩ := of_bind h
  rw [bitmapTranslate_eq] at h
  obtain ⟨_, -, h⟩ := of_bind h
  exact ⟨of_decide_eq_true (assert_ok.1 hk), (Except.ok.inj h).symm⟩

theorem bitmapUnmark_ok (hk : k < b.bits) (hset : b.has k = true) :
    bitmapUnmark b k = .ok (b.unmark k) := by
  rw [bitmapUnmark, decide_eq_true hk, assert_true, ok_bind, bitmapTranslate_eq]
  dsimp only
  rw [bne, byte_and_bitMask, hset, Bool.not_true, Bool.not_false, assert_true, ok_bind]
  rfl

theorem bitmapUnmark_clear (hk : k < b.bits) (hclear : b.has k = false) :
    bitmapUnmark b k = .error (.assertFailed "(b->bytes[i] & msk) != 0") := by
  rw [bitmapUnmark, decide_eq_true hk, assert_true, ok_bind, bitmapTranslate_eq]
  dsimp only
  rw [bne, byte_and_bitMask, hclear, Bool.not_false, Bool.not_true, assert_false, error_bind]

theorem bitmapUnmark_inv {b' : Bitmap} (h : bitmapUnmark b k = .ok b') :
    k < b.bits ∧ b' = b.unmark k := by
  obtain ⟨_, hk, h⟩ := of_bind h
  rw [bitmapTranslate_eq] at h
  obtain ⟨_, -, h⟩ := of_bind h
  exact ⟨of_decide_eq_true (assert_ok.1 hk), (Except.ok.inj h).symm⟩

theorem bitmapIsset_ok (hk : k < b.bits) : bitmapIsset b k = .ok (b.has k) := by
  rw [bitmapIsset, decide_eq_true hk, assert_true, ok_bind, bitmapTranslate_eq]
  dsimp only
  rw [bne, byte_and_bitMask, Bool.not_not]

theorem bitmapIsset_inv {set : Bool} (h : bitmapIsset b k = .ok set) : set = b.has k := by
  obtain ⟨_, hk, -⟩ := of_bind h
  rw [bitmapIsset_ok (of_decide_eq_true (assert_ok.1 hk))] at h
  exact (Except.ok.inj h).symm

end

end JinxOS
