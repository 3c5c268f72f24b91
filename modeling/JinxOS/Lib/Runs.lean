import Mathlib.Data.List.Infix

/-!
# Runs of a transition system

A system is given by its initial states and by a labelled step relation.  A `Run` keeps its
history: the list of the states it has left, each with the action taken there, newest first.
Keeping the history makes it possible to say that a condition was met at every step of a run, and
that a property holds in every state the run went through.

* `Run.invariant` — what holds at the start and is kept by every step holds at the end of a run;
* `Run.invariant_of` — the same when only the steps that meet a condition keep it;
* `Run.of_mem` — the run that leads to a state of the history;
* `Run.mono` — a run of a system with fewer steps;
* `Run.head` — a step in front of a run;
* `Run.history` — the history of a list of actions, for a system in which a state and an action
  determine the next state; `Run.of_history` is the run.
-/

/-- The run with history `tr` ends in the state. -/
inductive Run {σ α : Type} (Init : σ → Prop) (Step : σ → α → σ → Prop) : List (σ × α) → σ → Prop
  /-- A run starts in an initial state. -/
  | init {s : σ} (h : Init s) : Run Init Step [] s
  /-- A run goes on with a step. -/
  | step {tr : List (σ × α)} {s s' : σ} {a : α} (h : Run Init Step tr s) (hs : Step s a s') :
      Run Init Step ((s, a) :: tr) s'

namespace Run

variable {σ α : Type} {Init : σ → Prop} {Step : σ → α → σ → Prop} {tr : List (σ × α)} {s : σ}

/-- **Induction over the steps that meet a condition.** -/
theorem invariant_of {I : σ → Prop} {C : σ → α → Prop} (hinit : ∀ s, Init s → I s)
    (hstep : ∀ s a s', I s → C s a → Step s a s' → I s') (h : Run Init Step tr s)
    (hC : ∀ e ∈ tr, C e.1 e.2) : I s := by
  induction h with
  | init h => exact hinit _ h
  | step h hs ih =>
    exact hstep _ _ _ (ih fun e he => hC e (List.mem_cons_of_mem _ he)) (hC _ List.mem_cons_self) hs

/-- **An inductive invariant** holds at the end of every run. -/
theorem invariant {I : σ → Prop} (hinit : ∀ s, Init s → I s)
    (hstep : ∀ s a s', I s → Step s a s' → I s') (h : Run Init Step tr s) : I s :=
  h.invariant_of (C := fun _ _ => True) hinit (fun s a s' hI _ hs => hstep s a s' hI hs)
    fun _ _ => trivial

theorem of_mem (h : Run Init Step tr s) {e : σ × α} (he : e ∈ tr) :
    ∃ tr' s', (e :: tr') <:+ tr ∧ Run Init Step tr' e.1 ∧ Step e.1 e.2 s' := by
  induction h with
  | init h => simp at he
  | @step tr s s' a h hs ih =>
    rcases List.mem_cons.1 he with rfl | he
    · exact ⟨tr, s', List.suffix_rfl, h, hs⟩
    · obtain ⟨tr', s'', hsub, hrun, hs'⟩ := ih he
      exact ⟨tr', s'', hsub.trans (List.suffix_cons _ _), hrun, hs'⟩

theorem mono {Step' : σ → α → σ → Prop} (h : Run Init Step tr s)
    (hstep : ∀ s a s', Step s a s' → Step' s a s') : Run Init Step' tr s := by
  induction h with
  | init h => exact .init h
  | step _ hs ih => exact .step ih (hstep _ _ _ hs)

theorem head {s0 s1 : σ} {a : α} (hs : Step s0 a s1) (h : Run (fun x => x = s1) Step tr s) :
    Run (fun x => x = s0) Step (tr ++ [(s0, a)]) s := by
  induction h with
  | init h =>
    subst h
    exact .step (.init rfl) hs
  | step _ hs' ih => exact .step ih hs'

/-- The history of a list of actions, where `next` gives the state after an action. -/
def history (next : σ → α → σ) (s : σ) (as : List α) : List (σ × α) × σ :=
  as.foldl (fun h a => ((h.2, a) :: h.1, next h.2 a)) ([], s)

theorem history_append (next : σ → α → σ) (s : σ) (as : List α) (a : α) :
    history next s (as ++ [a]) =
      (((history next s as).2, a) :: (history next s as).1, next (history next s as).2 a) := by
  rw [history, List.foldl_append]
  rfl

theorem of_history (next : σ → α → σ) (hinit : Init s) (as : List α)
    (hsteps : ∀ e ∈ (history next s as).1, Step e.1 e.2 (next e.1 e.2)) :
    Run Init Step (history next s as).1 (history next s as).2 := by
  induction as using List.reverseRecOn with
  | nil => exact .init hinit
  | append_singleton as a ih =>
    rw [history_append] at hsteps ⊢
    exact .step (ih fun e he => hsteps e (List.mem_cons_of_mem _ he)) (hsteps _ List.mem_cons_self)

end Run
