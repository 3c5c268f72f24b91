import JinxOS.Lib.XorShift

/-!
# Random numbers

The two generators of `klib/random.c`.  `xorshift128plus` has two words of state, and is there to
seed `xorshift1024star`, which has sixteen and goes round them; `random` is the latter.

A generator of this kind is of no use any more once all its words are zero, for they stay so.  It
cannot get there from anywhere else: a call can be undone (`State128.next_bijective`,
`State1024.next_bijective`), and the states without a bit are only reached from such states.
`generators_stay_alive` is the result, for any number of calls.
-/

namespace JinxOS

open Function (Bijective update update_of_ne update_self)

/-! ## The code -/

/-- `state_128plus`. -/
structure State128 where
  /-- `state_128plus[0]`. -/
  word0 : BitVec 64
  /-- `state_128plus[1]`. -/
  word1 : BitVec 64
  deriving DecidableEq

/-- `xorshift128plus`: what it returns, and the state after the call. -/
def xorshift128plus (state : State128) : BitVec 64 × State128 :=
  let s1 := state.word0
  let s0 := state.word1
  let word0 := s0
  let s1 := s1 ^^^ (s1 <<< 23)
  let s1 := s1 ^^^ (s1 >>> 17)
  let s0 := s0 ^^^ (s0 >>> 26)
  let word1 := s0 ^^^ s1
  (word1 + word0, ⟨word0, word1⟩)

/-- `state_1024star` and `p`. -/
structure State1024 where
  /-- `state_1024star`. -/
  words : Fin 16 → BitVec 64
  p : Fin 16
  deriving DecidableEq

/-- `(p + 1) & 0xF`. -/
def nextIndex (p : Fin 16) : Fin 16 :=
  ⟨(p.val + 1) &&& 0xF, Nat.lt_succ_of_le Nat.and_le_right⟩

/-- `xorshift1024star`: what it returns, and the state after the call. -/
def xorshift1024star (state : State1024) : BitVec 64 × State1024 :=
  let s0 := state.words state.p
  let p := nextIndex state.p
  let s1 := state.words p
  let s1 := s1 ^^^ (s1 <<< 31)
  let s1 := s1 ^^^ (s1 >>> 11)
  let s0 := s0 ^^^ (s0 >>> 30)
  let word := s0 ^^^ s1
  (word * 1181783497276652981, ⟨Function.update state.words p word, p⟩)

/-- `random`. -/
def random (state : State1024) : BitVec 64 × State1024 := xorshift1024star state

/-- The state after a call of `xorshift128plus`. -/
def State128.next (state : State128) : State128 := (xorshift128plus state).2

/-- The state after a call of `xorshift1024star`. -/
def State1024.next (state : State1024) : State1024 := (xorshift1024star state).2

/-- All words are zero. -/
def State128.AllZero (state : State128) : Prop := state.word0 = 0 ∧ state.word1 = 0

/-- All words are zero. -/
def State1024.AllZero (state : State1024) : Prop := ∀ i, state.words i = 0

/-! ## What a call does to the words -/

/-- The two xor-shifts that both generators apply to one of their words. -/
def scramble (a b : Nat) (x : BitVec 64) : BitVec 64 := XorShift.right b (XorShift.left a x)

theorem scramble_zero (a b : Nat) : scramble a b 0 = 0 := by
  rw [scramble, XorShift.left_zero, XorShift.right_zero]

theorem scramble_bijective {a b : Nat} (ha : 0 < a) (hb : 0 < b) :
    Bijective (scramble a b) :=
  (XorShift.right_bijective hb).comp (XorShift.left_bijective ha)

theorem State128.next_eq (state : State128) : state.next =
    ⟨state.word1, XorShift.right 26 state.word1 ^^^ scramble 23 17 state.word0⟩ := rfl

theorem State1024.next_eq (state : State1024) : state.next =
    ⟨update state.words (nextIndex state.p)
      (XorShift.right 30 (state.words state.p) ^^^
        scramble 31 11 (state.words (nextIndex state.p))), nextIndex state.p⟩ := rfl

theorem nextIndex_bijective : Bijective nextIndex := by decide

theorem nextIndex_ne (p : Fin 16) : p ≠ nextIndex p := by
  revert p
  decide

/-! ## A call can be undone -/

/-- One of the words is still there, and the other one is scrambled and covered by it. -/
theorem State128.next_bijective : Bijective State128.next := by
  have hscramble : Bijective (scramble 23 17) := scramble_bijective (by decide) (by decide)
  constructor
  · rintro ⟨a, b⟩ ⟨a', b'⟩ heq
    rw [next_eq, next_eq, State128.mk.injEq] at heq
    obtain ⟨hb, ha⟩ := heq
    dsimp only at hb ha
    subst hb
    rw [hscramble.1 ((BitVec.xor_right_inj _).1 ha)]
  · rintro ⟨a, b⟩
    obtain ⟨x, hx⟩ := hscramble.2 (XorShift.right 26 a ^^^ b)
    refine ⟨⟨x, a⟩, ?_⟩
    rw [next_eq]
    rw [hx, ← BitVec.xor_assoc, BitVec.xor_self, BitVec.zero_xor]

/-- The word in front of the one that has been changed is still there. -/
theorem State1024.next_bijective : Bijective State1024.next := by
  have hscramble : Bijective (scramble 31 11) := scramble_bijective (by decide) (by decide)
  constructor
  · rintro ⟨f, p⟩ ⟨g, q⟩ heq
    rw [next_eq, next_eq, State1024.mk.injEq] at heq
    obtain ⟨hwords, hp⟩ := heq
    dsimp only at hwords hp
    obtain rfl := nextIndex_bijective.1 hp
    have hother : ∀ i, i ≠ nextIndex p → f i = g i := by
      intro i hi
      have hword := congrFun hwords i
      rwa [update_of_ne hi, update_of_ne hi] at hword
    have hchanged := congrFun hwords (nextIndex p)
    rw [update_self, update_self, hother p (nextIndex_ne p)] at hchanged
    have hfg : f = g := by
      funext i
      by_cases hi : i = nextIndex p
      · rw [hi]
        exact hscramble.1 ((BitVec.xor_right_inj _).1 hchanged)
      · exact hother i hi
    rw [hfg]
  · rintro ⟨f, q⟩
    obtain ⟨p, rfl⟩ := nextIndex_bijective.2 q
    obtain ⟨x, hx⟩ := hscramble.2 (XorShift.right 30 (f p) ^^^ f (nextIndex p))
    refine ⟨⟨update f (nextIndex p) x, p⟩, ?_⟩
    rw [next_eq]
    dsimp only
    rw [update_self, update_of_ne (nextIndex_ne p), hx, ← BitVec.xor_assoc,
      BitVec.xor_self, BitVec.zero_xor, Function.update_idem, Function.update_eq_self]

/-! ## All words zero -/

theorem State128.surjOn_allZero : Set.SurjOn State128.next {s | s.AllZero} {s | s.AllZero} := by
  rintro ⟨a, b⟩ ⟨ha, hb⟩
  dsimp only at ha hb
  refine ⟨⟨0, 0⟩, ⟨rfl, rfl⟩, ?_⟩
  rw [next_eq, ha, hb]
  rw [scramble_zero, XorShift.right_zero]
  rfl

theorem State1024.surjOn_allZero : Set.SurjOn State1024.next {s | s.AllZero} {s | s.AllZero} := by
  rintro ⟨f, q⟩ hf
  obtain rfl : f = fun _ => 0 := funext hf
  obtain ⟨p, rfl⟩ := nextIndex_bijective.2 q
  refine ⟨⟨fun _ => 0, p⟩, fun _ => rfl, ?_⟩
  rw [next_eq]
  rw [scramble_zero, XorShift.right_zero]
  exact congrArg (State1024.mk · (nextIndex p)) (Function.update_eq_self_iff.2 rfl)

/-- **The generators do not degenerate.**  A call of either one is a bijection of its states.  From
a state in which some word is not zero, no number of calls leads to one in which all words are. -/
theorem generators_stay_alive :
    Bijective State128.next ∧ Bijective State1024.next ∧
      (∀ state : State128, ¬ state.AllZero → ∀ n, ¬ (State128.next^[n] state).AllZero) ∧
      ∀ state : State1024, ¬ state.AllZero → ∀ n, ¬ (State1024.next^[n] state).AllZero := by
  refine ⟨State128.next_bijective, State1024.next_bijective, fun state halive n => ?_,
    fun state halive n => ?_⟩
  · have hkeep := State128.surjOn_allZero.mapsTo_compl State128.next_bijective.1
    exact hkeep.iterate n halive
  · have hkeep := State1024.surjOn_allZero.mapsTo_compl State1024.next_bijective.1
    exact hkeep.iterate n halive

end JinxOS
