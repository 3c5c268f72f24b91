import Mathlib.Tactic.Common

/-!
# Sequencing in `Except`

The rules for `>>=`: how it runs once the outcome of its first part is known, and the two inversion
rules, which take a run apart one call at a time.  Proofs use them by name instead of unfolding
`bind`, so that the terms the kernel compares stay small.
-/

namespace Except

variable {ε α β : Type}

theorem ok_bind (a : α) (f : α → Except ε β) : (Except.ok a >>= f) = f a := rfl

theorem error_bind (e : ε) (f : α → Except ε β) : (Except.error e >>= f) = .error e := rfl

theorem of_bind {x : Except ε α} {f : α → Except ε β} {b : β} (h : x >>= f = .ok b) :
    ∃ a, x = .ok a ∧ f a = .ok b := by
  cases x with
  | error e => cases h
  | ok a => exact ⟨a, rfl, h⟩

theorem bind_eq_error {x : Except ε α} {f : α → Except ε β} {e : ε} :
    x >>= f = .error e ↔ x = .error e ∨ ∃ a, x = .ok a ∧ f a = .error e := by
  cases x with
  | error e => simp [Bind.bind, Except.bind]
  | ok a => simp [Bind.bind, Except.bind]

theorem bind_ne_error {x : Except ε α} {f : α → Except ε β} {e : ε} (hx : x ≠ .error e)
    (hf : ∀ a, x = .ok a → f a ≠ .error e) : x >>= f ≠ .error e := by
  rw [Ne, bind_eq_error, not_or]
  exact ⟨hx, fun ⟨a, ha, he⟩ => hf a ha he⟩

/-- The value of an outcome, if it is one. -/
def okD (x : Except ε α) (d : α) : α :=
  match x with
  | .ok a => a
  | .error _ => d

theorem eq_ok_okD {x : Except ε α} (h : x.isOk = true) (d : α) : x = .ok (x.okD d) := by
  cases x with
  | error e => exact absurd h Bool.false_ne_true
  | ok a => rfl

end Except

export Except (ok_bind error_bind of_bind)
