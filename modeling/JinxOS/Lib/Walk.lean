/-!
# Walks over records of different lengths

A table is a sequence of records, each of which says how long it is.  A cursor begins at the first
record, goes on to `next p` from a record at `p`, and ends when it is at `stop` or beyond.

`Visits next stop p ps q` says that the cursor goes from `p` to `q` over the records at `ps`, and
`Walks next stop p ps q` that it ends there.  There is at most one walk from a position, but there
need not be one: if a record says that its length is 0, the cursor stays where it is.

* `exists_walks` — there is a walk if the cursor always goes on to a higher position;
* `Walks.split` — a walk begins with whatever the cursor visits first;
* `Visits.mod` — a cursor that is counted modulo `N` visits the same records, as long as they are
  below `N`; only the position behind the last of them may be another one.
-/

/-- From `p` the cursor goes over the records at `ps` to `q`. -/
inductive Visits (next : Nat → Nat) (stop : Nat) : Nat → List Nat → Nat → Prop
  /-- The cursor is there. -/
  | nil {p : Nat} : Visits next stop p [] p
  /-- The cursor goes over the record at `p`. -/
  | cons {p q : Nat} {ps : List Nat} (hlt : p < stop) (hrest : Visits next stop (next p) ps q) :
      Visits next stop p (p :: ps) q

/-- From `p` the cursor goes over the records at `ps`, and ends at `q`. -/
def Walks (next : Nat → Nat) (stop p : Nat) (ps : List Nat) (q : Nat) : Prop :=
  Visits next stop p ps q ∧ stop ≤ q

variable {next : Nat → Nat} {stop p q r : Nat} {ps qs : List Nat}

theorem Visits.append (h : Visits next stop p ps q) (h' : Visits next stop q qs r) :
    Visits next stop p (ps ++ qs) r := by
  induction h with
  | nil => exact h'
  | cons hlt _ ih => exact .cons hlt (ih h')

theorem Visits.to_mem (h : Visits next stop p (ps ++ r :: qs) q) :
    Visits next stop p ps r ∧ r < stop := by
  induction ps generalizing p with
  | nil =>
    cases h with
    | cons hlt _ => exact ⟨.nil, hlt⟩
  | cons x ps ih =>
    cases h with
    | cons hlt hrest => exact ⟨.cons hlt (ih hrest).1, (ih hrest).2⟩

theorem Walks.cons (hlt : p < stop) (h : Walks next stop (next p) ps q) :
    Walks next stop p (p :: ps) q :=
  ⟨.cons hlt h.1, h.2⟩

theorem Walks.of_lt (h : Walks next stop p ps q) (hlt : p < stop) :
    ∃ qs, ps = p :: qs ∧ Walks next stop (next p) qs q := by
  obtain ⟨hvisits, hstop⟩ := h
  cases hvisits with
  | nil => exact absurd hstop (Nat.not_le.2 hlt)
  | cons _ hrest => exact ⟨_, rfl, hrest, hstop⟩

theorem Walks.of_nil (h : Walks next stop p [] q) : stop ≤ p := by
  obtain ⟨hvisits, hstop⟩ := h
  cases hvisits
  exact hstop

theorem Walks.of_le (h : Walks next stop p ps q) (hle : stop ≤ p) : ps = [] := by
  cases h.1 with
  | nil => rfl
  | cons hlt _ => exact absurd hle (Nat.not_le.2 hlt)

/-- **A walk begins with whatever is visited first.** -/
theorem Walks.split (hv : Visits next stop p ps q) :
    ∀ {ws : List Nat}, Walks next stop p ws r → ∃ qs, ws = ps ++ qs ∧ Walks next stop q qs r := by
  induction hv with
  | nil => exact fun h => ⟨_, rfl, h⟩
  | cons hlt _ ih =>
    intro ws h
    obtain ⟨ws', rfl, h'⟩ := h.of_lt hlt
    obtain ⟨qs, rfl, hqs⟩ := ih h'
    exact ⟨qs, rfl, hqs⟩

theorem Walks.next_ne (hlt : p < stop) :
    ∀ {ps : List Nat}, Walks next stop p ps q → next p ≠ p
  | ps, h, heq => by
    obtain ⟨qs, rfl, h'⟩ := h.of_lt hlt
    rw [heq] at h'
    exact h'.next_ne hlt heq

/-- Where the cursor is, it has begun, or it has come from a record that it has visited. -/
theorem Visits.end_inv {P : Nat → Prop} (h : Visits next stop p ps q) (hp : P p)
    (hnext : ∀ qs r, Visits next stop p qs r → r < stop → P (next r)) : P q := by
  induction h with
  | nil => exact hp
  | @cons p _ _ hlt _ ih =>
    exact ih (hnext [] p .nil hlt) fun qs r hv => hnext (p :: qs) r (.cons hlt hv)

theorem Visits.le (h : Visits next stop p ps q) (hnext : ∀ x, x ≤ next x) :
    p ≤ q ∧ ∀ x ∈ ps, p ≤ x ∧ x < stop := by
  induction h with
  | nil => exact ⟨Nat.le_refl _, by simp⟩
  | @cons p q ps hlt _ ih =>
    have hle := hnext p
    refine ⟨Nat.le_trans hle ih.1, fun x hx => ?_⟩
    rcases List.mem_cons.1 hx with rfl | hx
    · exact ⟨Nat.le_refl _, hlt⟩
    · exact ⟨Nat.le_trans hle (ih.2 x hx).1, (ih.2 x hx).2⟩

/-- **There is a walk**, if the cursor goes on to a higher position from each record it comes to. -/
theorem exists_walks
    (hup : ∀ ps q, Visits next stop p ps q → q < stop → q < next q) :
    ∃ ps q, Walks next stop p ps q := by
  induction hd : stop - p using Nat.strongRecOn generalizing p with
  | _ d ih =>
    rcases Nat.lt_or_ge p stop with hlt | hge
    · have hnext : p < next p := hup [] p .nil hlt
      obtain ⟨ps, q, hwalks⟩ := ih (stop - next p) (by omega)
        (fun ps q hv hq => hup (p :: ps) q (.cons hlt hv) hq) rfl
      exact ⟨_, _, hwalks.cons hlt⟩
    · exact ⟨[], p, .nil, hge⟩

/-- **Counting modulo `N`.** -/
theorem Visits.mod {N : Nat} (hstop : stop ≤ N) (h : Visits next stop p ps q) :
    Visits (fun x => next x % N) stop (p % N) ps (q % N) := by
  induction h with
  | nil => exact .nil
  | cons hlt _ ih =>
    rw [Nat.mod_eq_of_lt (Nat.lt_of_lt_of_le hlt hstop)]
    exact .cons hlt ih
