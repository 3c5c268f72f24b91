import JinxOS.Cpu

/-!
# The tick counter

The code of `hw/pit.c`.  The interrupt handler counts ticks in a word, and `pit_wait` reads it again
and again until it is equal to what it is to be in the end.  Between two reads there may be any
number of interrupts: each of them takes the CPU away from the thread.  So the thread sees some of
the values of the counter, and all that is known is that they come in order.

The model has the counter with its interrupts and reads in any order (`PitEvent`), and the reads are
then the values modulo `2 ^ 32` of a sequence that does not decrease (`reads_eq`); every such
sequence is possible (`exists_events`).  `pit_wait` gets the sequence of what it reads.

* `pitWait_iff` — **when `pit_wait` leaves at the right time.**  It never leaves too early.  At the
  first read at which the time is over it leaves only if the counter is exactly at the end, and
  otherwise it has missed it.
-/

namespace JinxOS

/-! ## The code -/

/-- What `irq_handler_pit` does to `nticks`.  As `YIELD_MOD` is 1, it calls `thread_schedule` each
time. -/
def irqHandlerPit (nticks : Nat) : Nat := Word.add nticks 1

/-- The loop of `pit_wait`, for what it reads from `nticks` one after the other: the number of the
read after which it leaves, if it does. -/
def pitWaitLoop (eticks : Nat) : List Nat → Option Nat
  | [] => none
  | nticks :: reads => if nticks ≠ eticks then (pitWaitLoop eticks reads).map (· + 1) else some 0

/-- `pit_wait`. -/
def pitWait (nticks ticks : Nat) (reads : List Nat) : Option Nat :=
  pitWaitLoop (Word.add nticks ticks) reads

/-! ## Interrupts and reads -/

/-- What happens to the counter. -/
inductive PitEvent
  /-- The timer interrupt. -/
  | irq
  /-- The waiting thread reads the counter. -/
  | read
  deriving DecidableEq, Repr

/-- What the thread reads. -/
def reads : Nat → List PitEvent → List Nat
  | _, [] => []
  | nticks, .irq :: es => reads (irqHandlerPit nticks) es
  | nticks, .read :: es => nticks :: reads nticks es

/-- The numbers of ticks at which it reads. -/
def tickCounts : Nat → List PitEvent → List Nat
  | _, [] => []
  | n, .irq :: es => tickCounts (n + 1) es
  | n, .read :: es => n :: tickCounts n es

/-- **The counter is the number of ticks modulo `2 ^ 32`**, and the numbers do not decrease. -/
theorem reads_eq : ∀ (es : List PitEvent) (n : Nat),
    reads (n % 2 ^ 32) es = (tickCounts n es).map (· % 2 ^ 32) ∧
      (n :: tickCounts n es).Pairwise (· ≤ ·)
  | [], n => ⟨rfl, List.pairwise_singleton _ _⟩
  | .irq :: es, n => by
    obtain ⟨hreads, hsorted⟩ := reads_eq es (n + 1)
    have hnext : irqHandlerPit (n % 2 ^ 32) = (n + 1) % 2 ^ 32 := by
      rw [irqHandlerPit, Word.add]
      omega
    refine ⟨by rw [reads, hnext, hreads, tickCounts], ?_⟩
    obtain ⟨hle, hrest⟩ := List.pairwise_cons.1 hsorted
    exact List.pairwise_cons.2 ⟨fun k hk => Nat.le_of_succ_le (hle k hk), hrest⟩
  | .read :: es, n => by
    obtain ⟨hreads, hsorted⟩ := reads_eq es n
    refine ⟨by rw [reads, hreads, tickCounts, List.map_cons], ?_⟩
    refine List.pairwise_cons.2 ⟨fun k hk => ?_, hsorted⟩
    rcases List.mem_cons.1 hk with rfl | hk
    · exact Nat.le_refl k
    · exact (List.pairwise_cons.1 hsorted).1 k hk

theorem tickCounts_irqs (es : List PitEvent) : ∀ (d n : Nat),
    tickCounts n (List.replicate d .irq ++ es) = tickCounts (n + d) es
  | 0, _ => rfl
  | d + 1, n => by
    rw [List.replicate_succ, List.cons_append, tickCounts, tickCounts_irqs es d, Nat.add_assoc,
      Nat.add_comm 1]

/-- **Every sequence that does not decrease is possible.** -/
theorem exists_events : ∀ {obs : List Nat} {n : Nat}, (n :: obs).Pairwise (· ≤ ·) →
    ∃ es, tickCounts n es = obs
  | [], _, _ => ⟨[], rfl⟩
  | t :: obs, n, h => by
    obtain ⟨hle, hrest⟩ := List.pairwise_cons.1 h
    obtain ⟨d, rfl⟩ := Nat.exists_eq_add_of_le (hle t List.mem_cons_self)
    obtain ⟨es, hes⟩ := exists_events hrest
    refine ⟨List.replicate d .irq ++ .read :: es, ?_⟩
    rw [tickCounts_irqs, tickCounts, hes]

/-! ## Waiting -/

/-- The first read at which the time is over. -/
def firstOver (start ticks : Nat) (obs : List Nat) : Option Nat :=
  obs.findIdx? fun t => start + ticks ≤ t

theorem mod_ne_of_lt {start ticks t : Nat} (hticks : ticks < 2 ^ 31) (hstart : start ≤ t)
    (hlt : t < start + ticks) : t % 2 ^ 32 ≠ Word.add (start % 2 ^ 32) ticks := by
  rw [Word.add]
  omega

theorem pitWaitLoop_ge {start ticks : Nat} (hticks : ticks < 2 ^ 31) : ∀ {obs : List Nat},
    (∀ t ∈ obs, start ≤ t) → ∀ i,
      pitWaitLoop (Word.add (start % 2 ^ 32) ticks) (obs.map (· % 2 ^ 32)) = some i →
      ∃ t, obs[i]? = some t ∧ start + ticks ≤ t
  | [], _, i, h => by cases h
  | t :: obs, hobs, i, h => by
    rw [List.map_cons, pitWaitLoop] at h
    split at h
    · obtain ⟨j, hj, rfl⟩ := Option.map_eq_some_iff.1 h
      exact pitWaitLoop_ge hticks (fun u hu => hobs u (List.mem_cons_of_mem t hu)) j hj
    · rename_i heq
      cases h
      refine ⟨t, rfl, Nat.not_lt.1 fun hlt => heq ?_⟩
      exact mod_ne_of_lt hticks (hobs t List.mem_cons_self) hlt

/-- The loop leaves at the first read at which the time is over, if the counter is at its end. -/
theorem pitWaitLoop_iff {start ticks : Nat} (hticks : ticks < 2 ^ 31) : ∀ {obs : List Nat},
    (∀ t ∈ obs, start ≤ t) →
      (pitWaitLoop (Word.add (start % 2 ^ 32) ticks) (obs.map (· % 2 ^ 32)) =
          firstOver start ticks obs ↔
        ∀ i t, firstOver start ticks obs = some i → obs[i]? = some t →
          t % 2 ^ 32 = (start + ticks) % 2 ^ 32)
  | [], _ => iff_of_true rfl fun i t h => by cases h
  | t :: obs, hobs => by
    have hrest := pitWaitLoop_iff hticks fun u hu => hobs u (List.mem_cons_of_mem t hu)
    have hend : Word.add (start % 2 ^ 32) ticks = (start + ticks) % 2 ^ 32 := by
      rw [Word.add]
      omega
    rw [List.map_cons, pitWaitLoop, firstOver, List.findIdx?_cons]
    rcases Nat.lt_or_ge t (start + ticks) with hlt | hge
    · -- the time is not over: the loop goes on, and what it does is shifted by one
      have hne := mod_ne_of_lt hticks (hobs t List.mem_cons_self) hlt
      rw [if_pos hne, if_neg (by simpa using hlt), Option.map_inj_right (by simp)]
      refine hrest.trans ⟨fun h i u hi hu => ?_, fun h i u hi hu => ?_⟩
      · obtain ⟨j, hj, rfl⟩ := Option.map_eq_some_iff.1 hi
        exact h j u hj hu
      · exact h (i + 1) u (Option.map_eq_some_iff.2 ⟨i, hi, rfl⟩) hu
    · have hover : decide (start + ticks ≤ t) = true := decide_eq_true hge
      by_cases heq : t % 2 ^ 32 = (start + ticks) % 2 ^ 32
      · rw [if_neg fun h => h (heq.trans hend.symm), if_pos hover]
        refine iff_of_true rfl fun i u hi hu => ?_
        cases hi
        cases hu
        exact heq
      · rw [if_pos fun h => heq (h.trans hend), if_pos hover]
        refine iff_of_false ?_ fun h => heq (h 0 t rfl rfl)
        cases pitWaitLoop (Word.add (start % 2 ^ 32) ticks) (obs.map (· % 2 ^ 32)) <;> simp

/-- **Waiting for ticks.**  For every sequence of ticks at which the thread reads the counter:
`pit_wait` does not leave before the time is over.  It leaves at the first read at which the time is
over exactly if the counter has gone on by just the ticks to wait for, or by these and a multiple of
`2 ^ 32`. -/
theorem pitWait_iff (start ticks : Nat) (hticks : ticks < 2 ^ 31) (obs : List Nat)
    (hobs : (start :: obs).Pairwise (· ≤ ·)) :
    (∀ i, pitWait (start % 2 ^ 32) ticks (obs.map (· % 2 ^ 32)) = some i →
        ∃ t, obs[i]? = some t ∧ start + ticks ≤ t) ∧
      (pitWait (start % 2 ^ 32) ticks (obs.map (· % 2 ^ 32)) = firstOver start ticks obs ↔
        ∀ i t, firstOver start ticks obs = some i → obs[i]? = some t →
          t % 2 ^ 32 = (start + ticks) % 2 ^ 32) := by
  have hle := (List.pairwise_cons.1 hobs).1
  exact ⟨pitWaitLoop_ge hticks hle, pitWaitLoop_iff hticks hle⟩

/-- Every tick is seen, across the end of the counter. -/
theorem pitWait_iff_wrap :
    pitWait (2 ^ 32 - 1) 2 [2 ^ 32 - 1, 0, 1] = some 2 ∧
      firstOver (2 ^ 32 - 1) 2 [2 ^ 32 - 1, 2 ^ 32, 2 ^ 32 + 1] = some 2 := by
  obtain ⟨-, hiff⟩ := pitWait_iff (2 ^ 32 - 1) 2 (by decide) [2 ^ 32 - 1, 2 ^ 32, 2 ^ 32 + 1]
    (by decide)
  have hfirst : firstOver (2 ^ 32 - 1) 2 [2 ^ 32 - 1, 2 ^ 32, 2 ^ 32 + 1] = some 2 := by decide
  refine ⟨(hiff.2 fun i t hi ht => ?_).trans hfirst, hfirst⟩
  rw [hfirst] at hi
  cases hi
  cases ht
  rfl

/-- **The tick that matters is not seen**: two interrupts come between two reads. -/
theorem pitWait_misses :
    reads 0 [.read, .irq, .irq, .read, .irq, .read] = [0, 2, 3] ∧
      pitWait 0 1 [0, 2, 3] = none ∧ firstOver 0 1 [0, 2, 3] = some 1 := by
  decide

end JinxOS
