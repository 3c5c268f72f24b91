import Mathlib.Tactic.Common

/-!
# Properly nested bracket sequences

A sequence of labelled opening and closing brackets is read with a stack of the labels that are
open (`nest`).  An opening bracket must not repeat an open label, and a closing bracket must
close the innermost one.  The sequence is balanced when the stack is empty at both ends.

The one structural fact is `exists_matching`: the bracket at the bottom of the stack is closed
somewhere, and what stands before its closing bracket never looks below it.  Applied to the first
bracket of a balanced sequence it gives the decomposition `exists_section` that inductions over
balanced sequences use.
-/

/-- An opening or a closing bracket with a label. -/
inductive Paren (α : Type*)
  | opn (a : α)
  | cls (a : α)
  deriving DecidableEq

namespace Paren

variable {α : Type*} [DecidableEq α]

/-- The stack of open labels after the sequence, if the sequence is properly nested on top of the
given stack. -/
def nest : List α → List (Paren α) → Option (List α)
  | st, [] => some st
  | st, opn a :: ops => if a ∈ st then none else nest (a :: st) ops
  | [], cls _ :: _ => none
  | b :: st, cls a :: ops => if a = b then nest st ops else none

/-- No bracket is opened inside another one. -/
def Flat (ops : List (Paren α)) : Prop :=
  ∀ pre a post, ops = pre ++ opn a :: post → nest [] pre = some []

section
variable {st st' : List α} {a : α} {ops : List (Paren α)}

theorem nest_opn (h : nest st (opn a :: ops) = some st') :
    a ∉ st ∧ nest (a :: st) ops = some st' := by
  rw [nest] at h
  split at h
  · exact absurd h (by simp)
  · exact ⟨‹_›, h⟩

theorem nest_cls (h : nest st (cls a :: ops) = some st') :
    ∃ st0, st = a :: st0 ∧ nest st0 ops = some st' := by
  cases st with
  | nil => simp [nest] at h
  | cons b st =>
    rw [nest] at h
    split at h
    · subst a; exact ⟨st, rfl, h⟩
    · exact absurd h (by simp)

end

theorem nest_append (pre post : List (Paren α)) (st : List α) :
    nest st (pre ++ post) = (nest st pre).bind fun st' => nest st' post := by
  induction pre generalizing st with
  | nil => simp [nest]
  | cons op pre ih =>
    cases op with
    | opn a =>
      rw [List.cons_append, nest, nest]
      split
      · rfl
      · exact ih _
    | cls a =>
      cases st with
      | nil => simp [nest]
      | cons b st =>
        rw [List.cons_append, nest, nest]
        split
        · exact ih _
        · rfl

/-- **The bottom bracket is closed**, and the part before its closing bracket is properly nested
on the rest of the stack alone. -/
theorem exists_matching {a : α} {ops : List (Paren α)} :
    ∀ {st : List α}, nest (st ++ [a]) ops = some [] →
      ∃ body post, ops = body ++ cls a :: post ∧ nest st body = some [] ∧
        nest [] post = some [] := by
  induction ops with
  | nil => intro st h; simp [nest] at h
  | cons op ops ih =>
    intro st h
    cases op with
    | opn b =>
      obtain ⟨hb, hrest⟩ := nest_opn h
      have hrest : nest ((b :: st) ++ [a]) ops = some [] := hrest
      obtain ⟨body, post, rfl, hbody, hpost⟩ := ih hrest
      refine ⟨opn b :: body, post, rfl, ?_, hpost⟩
      rw [nest, if_neg fun hmem => hb (List.mem_append_left _ hmem), hbody]
    | cls b =>
      obtain ⟨st0, hst, h⟩ := nest_cls h
      cases st with
      | nil =>
        obtain ⟨rfl, rfl⟩ : a = b ∧ [] = st0 := by simpa using hst
        exact ⟨[], ops, rfl, rfl, h⟩
      | cons c st =>
        obtain ⟨rfl, rfl⟩ : c = b ∧ st ++ [a] = st0 := by simpa using hst
        obtain ⟨body, post, rfl, hbody, hpost⟩ := ih h
        exact ⟨cls c :: body, post, rfl, by rw [nest, if_pos rfl, hbody], hpost⟩

/-- A balanced sequence is empty, or an outermost section followed by a balanced sequence. -/
theorem exists_section {ops : List (Paren α)} (h : nest [] ops = some []) :
    ops = [] ∨ ∃ a body post, ops = opn a :: (body ++ cls a :: post) ∧ nest [] body = some [] ∧
      nest [] post = some [] := by
  cases ops with
  | nil => exact .inl rfl
  | cons op ops =>
    cases op with
    | opn a =>
      have hrest : nest ([] ++ [a]) ops = some [] := (nest_opn h).2
      obtain ⟨body, post, rfl, hbody, hpost⟩ := exists_matching hrest
      exact .inr ⟨a, body, post, rfl, hbody, hpost⟩
    | cls a => simp [nest] at h

theorem Flat.body_eq_nil {a : α} {pre body post : List (Paren α)}
    (h : Flat (pre ++ opn a :: (body ++ post))) (hpre : nest [] pre = some [])
    (hbody : nest [] body = some []) : body = [] := by
  rcases exists_section hbody with hb | ⟨b, inner, rest, hb, -, -⟩
  · exact hb
  · have hin := h (pre ++ [opn a]) b (inner ++ cls b :: rest ++ post) (by simp [hb])
    rw [nest_append, hpre] at hin
    simp [nest] at hin

theorem Flat.cons_section {a : α} {ops : List (Paren α)} (h : Flat ops) :
    Flat (opn a :: cls a :: ops) := by
  intro pre b post hops
  rcases pre with _ | ⟨p, _ | ⟨q, pre⟩⟩
  · rfl
  · simp at hops
  · obtain ⟨rfl, rfl, rfl⟩ : opn a = p ∧ cls a = q ∧ ops = pre ++ opn b :: post := by
      simpa using hops
    simpa [nest] using h pre b post rfl

end Paren
