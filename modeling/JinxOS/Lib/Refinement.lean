import JinxOS.Lib.Outcome

/-!
# Sequences of calls and their specification

A component is a function `call` that takes a state and an operation to a result and the next state,
or fails.  `runCalls` makes a sequence of calls.  What the calls are for is said over another type,
whose values are what the states stand for; a relation `R` says which value a state stands for.

There are two kinds of specification, and one rule for each.

* An operation has one result, and is only meant to be called where `Pre` allows it.  If one legal
call returns that result and keeps `R`, then every legal sequence of calls returns the results that
the specification gives for it: `runCalls_eq`.
* An operation may have several results, which `Post` relates to what the value is afterwards, and a
  call need not return.  If one call that returns meets `Post` and keeps `R`, then so does every
  sequence of calls that returns: `runCalls_allows`.

Both hold of every sequence, and so of every part of one with which it begins: what they say of the
end of a sequence is true after each of its calls.
-/

namespace Refinement

variable {σ α Op Res ε : Type}

/-- The results of a sequence of calls, and the state after it. -/
def runCalls (call : σ → Op → Except ε (Res × σ)) : σ → List Op → Except ε (List Res × σ)
  | s, [] => .ok ([], s)
  | s, op :: ops => do
    let (r, s) ← call s op
    let (rs, s) ← runCalls call s ops
    .ok (r :: rs, s)

variable {call : σ → Op → Except ε (Res × σ)} {R : σ → α → Prop} {s s' : σ} {a : α}
  {op : Op} {ops : List Op}

@[simp] theorem runCalls_nil : runCalls call s [] = .ok ([], s) := rfl

theorem runCalls_cons {r : Res} {rs : List Res} {s1 : σ} (hcall : call s op = .ok (r, s1))
    (hrest : runCalls call s1 ops = .ok (rs, s')) :
    runCalls call s (op :: ops) = .ok (r :: rs, s') := by
  rw [runCalls, hcall, ok_bind]
  dsimp only
  rw [hrest, ok_bind]

theorem runCalls_cons_inv {rs : List Res} (h : runCalls call s (op :: ops) = .ok (rs, s')) :
    ∃ r s1 rs', call s op = .ok (r, s1) ∧ runCalls call s1 ops = .ok (rs', s') ∧ rs = r :: rs' := by
  obtain ⟨⟨r, s1⟩, hcall, h⟩ := of_bind h
  obtain ⟨⟨rs', s2⟩, hrest, h⟩ := of_bind h
  cases h
  exact ⟨r, s1, rs', hcall, hrest, rfl⟩

/-! ## One result -/

/-- The results that a specification gives for a sequence, and the value after it. -/
def replay (next : α → Op → Res × α) : α → List Op → List Res × α
  | a, [] => ([], a)
  | a, op :: ops =>
    let (r, a) := next a op
    let (rs, a) := replay next a ops
    (r :: rs, a)

/-- Every operation of a sequence is called where it is allowed. -/
def Legal (Pre : α → Op → Prop) (next : α → Op → Res × α) : α → List Op → Prop
  | _, [] => True
  | a, op :: ops => Pre a op ∧ Legal Pre next (next a op).2 ops

instance {Pre : α → Op → Prop} {next : α → Op → Res × α} [∀ a op, Decidable (Pre a op)] :
    (a : α) → (ops : List Op) → Decidable (Legal Pre next a ops)
  | _, [] => inferInstanceAs (Decidable True)
  | a, op :: ops =>
    have : Decidable (Legal Pre next (next a op).2 ops) := instDecidableLegal _ ops
    inferInstanceAs (Decidable (Pre a op ∧ Legal Pre next (next a op).2 ops))

/-- **Legal sequences return what the specification says**, if legal calls do. -/
theorem runCalls_eq {Pre : α → Op → Prop} {next : α → Op → Res × α}
    (hstep : ∀ s a op, R s a → Pre a op →
      ∃ s', call s op = .ok ((next a op).1, s') ∧ R s' (next a op).2) :
    ∀ {ops : List Op} {s : σ} {a : α}, R s a → Legal Pre next a ops →
      ∃ s', runCalls call s ops = .ok ((replay next a ops).1, s') ∧ R s' (replay next a ops).2
  | [], s, _, hr, _ => ⟨s, rfl, hr⟩
  | op :: _, s, a, hr, ⟨hpre, hlegal⟩ => by
    obtain ⟨s1, hcall, hr1⟩ := hstep s a op hr hpre
    obtain ⟨s', hrest, hr'⟩ := runCalls_eq hstep hr1 hlegal
    exact ⟨s', runCalls_cons hcall hrest, hr'⟩

/-! ## Several results -/

/-- The results of a sequence are allowed, and lead from one value to the other. -/
inductive Allows (Post : α → Op → Res → α → Prop) : α → List Op → List Res → α → Prop
  /-- No calls. -/
  | nil {a : α} : Allows Post a [] [] a
  /-- A call, and those that follow. -/
  | cons {a a' a'' : α} {op : Op} {ops : List Op} {r : Res} {rs : List Res} (h : Post a op r a')
      (hrest : Allows Post a' ops rs a'') : Allows Post a (op :: ops) (r :: rs) a''

/-- **Sequences that return are allowed**, if calls that return are. -/
theorem runCalls_allows {Post : α → Op → Res → α → Prop}
    (hstep : ∀ s a op r s', R s a → call s op = .ok (r, s') → ∃ a', Post a op r a' ∧ R s' a') :
    ∀ {ops : List Op} {s : σ} {a : α} {rs : List Res}, R s a →
      runCalls call s ops = .ok (rs, s') → ∃ a', Allows Post a ops rs a' ∧ R s' a'
  | [], s, a, rs, hr, hrun => by
    cases hrun
    exact ⟨a, .nil, hr⟩
  | op :: _, s, a, rs, hr, hrun => by
    obtain ⟨r, s1, rs', hcall, hrest, rfl⟩ := runCalls_cons_inv hrun
    obtain ⟨a1, hpost, hr1⟩ := hstep s a op r s1 hr hcall
    obtain ⟨a', hallows, hr'⟩ := runCalls_allows hstep hr1 hrest
    exact ⟨a', .cons hpost hallows, hr'⟩

end Refinement
