import JinxOS.Cpu
import Mathlib.Data.List.Induction

/-!
# Timers

The code of `klib/time.c`.  A timer stores the tick count of the last `timer_start` and of the last
`timer_stop`, and what `timer_lap` and `timer_stop` return is the difference of the tick count now
and the one at the start.  `timer_resume` changes neither of them, so the ticks between a stop and a
resume are counted like all others.

What a timer is for is said by `Watch`, which adds up the intervals in which it runs, and apart from
that the intervals between a stop and the next resume.  A call is at a tick count without bound, of
which the code sees the last 32 bits.

* `Follows.step` — a call that the assertions allow does to a timer what it does to its watch;
* `timerCalls_eq_iff` — **what a timer returns** is the time since the start, which is the time for
  which it was active exactly if it was never paused for a tick.
-/

namespace JinxOS

open Function (update update_self update_of_ne)

/-! ## The code -/

/-- `struct time`. -/
structure Time where
  msec : Nat
  sec : Nat
  min : Nat
  hr : Nat
  deriving DecidableEq, Repr

/-- `msec2time`. -/
def msec2time (msec : Nat) : Time :=
  let t : Time := ⟨msec % 1000, 0, 0, 0⟩
  let msec := msec / 1000
  if msec ≠ 0 then
    let t := { t with sec := msec % 60 }
    let msec := msec / 60
    if msec ≠ 0 then
      let t := { t with min := msec % 60 }
      let msec := msec / 60
      if msec ≠ 0 then { t with hr := msec } else t
    else t
  else t

/-- `time2msec`. -/
def time2msec (t : Time) : Nat :=
  Word.add (Word.mul (Word.add (Word.mul (Word.add (Word.mul t.hr 60) t.min) 60) t.sec) 1000) t.msec

/-- `NTIMERS`. -/
def ntimers : Nat := 128

/-- `struct timer`. -/
structure Timer where
  startTicks : Nat
  stopTicks : Nat
  active : Bool
  deriving DecidableEq, Repr

/-- `timers`. -/
abbrev Timers := Fin ntimers → Option Timer

/-- `timers[timer_id]`, which is asserted not to be null. -/
def theTimer (timers : Timers) (id : Fin ntimers) : Except Fault Timer :=
  match timers id with
  | none => .error (.assertFailed "timers[timer_id] != NULL")
  | some timer => .ok timer

/-- `timer_start`. -/
def timerStart (timers : Timers) (pitTicks : Nat) (id : Fin ntimers) : Except Fault Timers := do
  let timer ← theTimer timers id
  assert "!timers[timer_id]->active" (!timer.active)
  .ok (update timers id (some { timer with active := true, startTicks := pitTicks }))

/-- `timer_lap`. -/
def timerLap (timers : Timers) (pitTicks : Nat) (id : Fin ntimers) : Except Fault Time := do
  let timer ← theTimer timers id
  assert "timers[timer_id]->active" timer.active
  .ok (msec2time (Word.sub pitTicks timer.startTicks))

/-- `timer_stop`. -/
def timerStop (timers : Timers) (pitTicks : Nat) (id : Fin ntimers) :
    Except Fault (Time × Timers) := do
  let timer ← theTimer timers id
  assert "timers[timer_id]->active" timer.active
  let timer := { timer with stopTicks := pitTicks, active := false }
  .ok (msec2time (Word.sub timer.stopTicks timer.startTicks),
    update timers id (some timer))

/-- `timer_resume`. -/
def timerResume (timers : Timers) (id : Fin ntimers) : Except Fault Timers := do
  let timer ← theTimer timers id
  assert "!timers[timer_id]->active" (!timer.active)
  .ok (update timers id (some { timer with active := true }))

/-- `timer_reset`. -/
def timerReset (timers : Timers) (id : Fin ntimers) : Except Fault Timers := do
  let _ ← theTimer timers id
  .ok (update timers id (some ⟨0, 0, false⟩))

/-! ## Sequences of calls -/

/-- The functions. -/
inductive TimerOp
  | start | lap | stop | resume | reset
  deriving DecidableEq, Repr

/-- A call. -/
structure TimerCall where
  /-- The number of ticks at the time of the call. -/
  now : Nat
  id : Fin ntimers
  op : TimerOp
  deriving DecidableEq, Repr

/-- What a call returns, if it does not return `void`, and the timers after it. -/
def timerCall (timers : Timers) (call : TimerCall) : Except Fault (Option Time × Timers) :=
  let pitTicks := call.now % 2 ^ 32
  match call.op with
  | .start => (timerStart timers pitTicks call.id).map fun timers => (none, timers)
  | .lap => (timerLap timers pitTicks call.id).map fun t => (some t, timers)
  | .stop => (timerStop timers pitTicks call.id).map fun (t, timers) => (some t, timers)
  | .resume => (timerResume timers call.id).map fun timers => (none, timers)
  | .reset => (timerReset timers call.id).map fun timers => (none, timers)

/-- The timers after a sequence of calls. -/
def timerCalls (timers : Timers) : List TimerCall → Except Fault Timers
  | [] => .ok timers
  | call :: calls => do
    let (_, timers) ← timerCall timers call
    timerCalls timers calls

theorem timerCalls_append : ∀ {timers : Timers} {calls calls' : List TimerCall},
    timerCalls timers (calls ++ calls') =
      timerCalls timers calls >>= fun timers => timerCalls timers calls'
  | _, [], _ => rfl
  | timers, call :: calls, calls' => by
    rw [List.cons_append, timerCalls, timerCalls]
    cases timerCall timers call with
    | error e => rfl
    | ok r => exact timerCalls_append

/-! ## The watch -/

/-- What has happened to a timer since the last `timer_start`. -/
structure Watch where
  /-- The tick count of the start. -/
  started : Nat
  /-- The ticks for which it was active, up to the last stop or resume. -/
  active : Nat
  /-- The ticks between a stop and the next resume. -/
  paused : Nat
  /-- The tick count of the last start, stop or resume. -/
  last : Nat
  running : Bool
  deriving DecidableEq, Repr

/-- The watch stops. -/
def Watch.stop (w : Watch) (now : Nat) : Watch :=
  { w with active := w.active + (now - w.last), last := now, running := false }

/-- The watch goes on. -/
def Watch.resume (w : Watch) (now : Nat) : Watch :=
  { w with paused := w.paused + (now - w.last), last := now, running := true }

/-- What a call does to the watch of its timer.  Before a start and after a reset there is none. -/
def Watch.next (w : Option Watch) (now : Nat) : TimerOp → Option Watch
  | .start => some ⟨now, 0, 0, now, true⟩
  | .lap => w
  | .stop => w.map (Watch.stop · now)
  | .resume => w.map (Watch.resume · now)
  | .reset => none

/-- The watch of a timer after a sequence of calls. -/
def watchAfter (id : Fin ntimers) (calls : List TimerCall) : Option Watch :=
  calls.foldl (fun w call => if call.id = id then Watch.next w call.now call.op else w) none

/-- The ticks for which a timer that runs has been active. -/
def Watch.activeAt (w : Watch) (now : Nat) : Nat := w.active + (now - w.last)

/-! ## Times -/

theorem time2msec_msec2time {msec : Nat} (h : msec < 2 ^ 32) :
    time2msec (msec2time msec) = msec := by
  rw [msec2time]
  dsimp only
  split_ifs <;> simp only [time2msec, Word.add, Word.mul] <;> omega

theorem msec2time_inj {a b : Nat} (ha : a < 2 ^ 32) (hb : b < 2 ^ 32) :
    msec2time a = msec2time b ↔ a = b := by
  refine ⟨fun h => ?_, congrArg msec2time⟩
  rw [← time2msec_msec2time ha, h, time2msec_msec2time hb]

/-! ## A timer and its watch -/

/-- The timer is in the state that its watch says, after the calls. -/
structure Follows (timer : Timer) (w : Watch) (calls : List TimerCall) : Prop where
  active_eq : timer.active = w.running
  start_eq : timer.startTicks = w.started % 2 ^ 32
  sum_eq : w.started + w.active + w.paused = w.last
  started_mem : ∃ call ∈ calls, call.now = w.started
  last_mem : ∃ call ∈ calls, call.now = w.last

/-- Tick counts do not decrease, and all calls are within `2 ^ 32` ticks. -/
def Timely (calls : List TimerCall) : Prop :=
  calls.Pairwise fun a b => a.now ≤ b.now ∧ b.now < a.now + 2 ^ 32

section
variable {timer : Timer} {w : Watch} {call : TimerCall} {calls : List TimerCall}

theorem Follows.mono (h : Follows timer w calls) : Follows timer w (calls ++ [call]) := by
  obtain ⟨c, hc, hnow⟩ := h.started_mem
  obtain ⟨d, hd, hnow'⟩ := h.last_mem
  exact ⟨h.active_eq, h.start_eq, h.sum_eq, ⟨c, List.mem_append_left _ hc, hnow⟩,
    ⟨d, List.mem_append_left _ hd, hnow'⟩⟩

theorem Follows.last_le (h : Follows timer w calls) (htimely : Timely (calls ++ [call])) :
    w.last ≤ call.now := by
  obtain ⟨d, hd, hnow⟩ := h.last_mem
  rw [← hnow]
  exact ((List.pairwise_append.1 htimely).2.2 d hd call List.mem_cons_self).1

theorem mem_concat_now (calls : List TimerCall) (call : TimerCall) :
    ∃ c ∈ calls ++ [call], c.now = call.now :=
  ⟨call, List.mem_append_right _ List.mem_cons_self, rfl⟩

theorem Follows.stop (h : Follows timer w calls) (htimely : Timely (calls ++ [call]))
    (stopTicks : Nat) : Follows { timer with stopTicks := stopTicks, active := false }
      (w.stop call.now) (calls ++ [call]) where
  active_eq := rfl
  start_eq := h.start_eq
  sum_eq := by
    have hle := h.last_le htimely
    have hsum := h.sum_eq
    rw [Watch.stop]
    dsimp only
    omega
  started_mem := h.mono.started_mem
  last_mem := mem_concat_now calls call

theorem Follows.resume (h : Follows timer w calls) (htimely : Timely (calls ++ [call])) :
    Follows { timer with active := true } (w.resume call.now) (calls ++ [call]) where
  active_eq := rfl
  start_eq := h.start_eq
  sum_eq := by
    have hle := h.last_le htimely
    have hsum := h.sum_eq
    rw [Watch.resume]
    dsimp only
    omega
  started_mem := h.mono.started_mem
  last_mem := mem_concat_now calls call

end

section
variable {timers timers' : Timers} {call : TimerCall} {calls : List TimerCall} {r : Option Time}

/-- **What a call that returns has done**: the timer was there, and the state of the timer allowed
it. -/
theorem timerCall_cases (h : timerCall timers call = .ok (r, timers')) :
    ∃ timer, timers call.id = some timer ∧
      ((call.op = .start ∧ timer.active = false ∧ r = none ∧
          timers' = update timers call.id
            (some { timer with active := true, startTicks := call.now % 2 ^ 32 })) ∨
        (call.op = .lap ∧ timer.active = true ∧ timers' = timers ∧
          r = some (msec2time (Word.sub (call.now % 2 ^ 32) timer.startTicks))) ∨
        (call.op = .stop ∧ timer.active = true ∧ timers' = update timers call.id
            (some { timer with stopTicks := call.now % 2 ^ 32, active := false }) ∧
          r = some (msec2time (Word.sub (call.now % 2 ^ 32) timer.startTicks))) ∨
        (call.op = .resume ∧ timer.active = false ∧ r = none ∧
          timers' = update timers call.id (some { timer with active := true })) ∨
        (call.op = .reset ∧ r = none ∧
          timers' = update timers call.id (some ⟨0, 0, false⟩))) := by
  rw [timerCall] at h
  cases htimer : timers call.id with
  | none =>
    have hnone : theTimer timers call.id = .error (.assertFailed "timers[timer_id] != NULL") := by
      rw [theTimer, htimer]
    cases hop : call.op <;>
      · rw [hop] at h
        simp only [timerStart, timerLap, timerStop, timerResume, timerReset, hnone,
          error_bind] at h
        cases h
  | some timer =>
    have hsome : theTimer timers call.id = .ok timer := by rw [theTimer, htimer]
    refine ⟨timer, rfl, ?_⟩
    cases hop : call.op <;> rw [hop] at h <;> cases hactive : timer.active <;>
      simp only [timerStart, timerLap, timerStop, timerResume, timerReset, hsome, hactive,
        Bool.not_true, Bool.not_false, assert_true, assert_false, ok_bind,
        error_bind] at h <;>
      cases h <;> simp

/-- **One call.**  It does to the timer what it does to its watch. -/
theorem Follows.step (htimely : Timely (calls ++ [call]))
    (h : timerCall timers call = .ok (r, timers')) {w : Option Watch}
    (hw : ∀ v, w = some v → ∃ timer, timers call.id = some timer ∧ Follows timer v calls) :
    ∀ v, Watch.next w call.now call.op = some v →
      ∃ timer, timers' call.id = some timer ∧ Follows timer v (calls ++ [call]) := by
  intro v hv
  obtain ⟨timer, htimer, hcases⟩ := timerCall_cases h
  rcases hcases with ⟨hop, -, -, rfl⟩ | ⟨hop, -, rfl, -⟩ | ⟨hop, -, rfl, -⟩ | ⟨hop, -, -, rfl⟩ |
    ⟨hop, -, -⟩ <;> rw [hop] at hv
  · cases hv
    exact ⟨_, update_self .., rfl, rfl, rfl, mem_concat_now calls call,
      mem_concat_now calls call⟩
  · obtain ⟨timer', htimer', hf⟩ := hw v hv
    exact ⟨timer', htimer', hf.mono⟩
  · obtain ⟨u, hu, rfl⟩ := Option.map_eq_some_iff.1 hv
    obtain ⟨timer', htimer', hf⟩ := hw u hu
    cases htimer.symm.trans htimer'
    exact ⟨_, update_self .., hf.stop htimely _⟩
  · obtain ⟨u, hu, rfl⟩ := Option.map_eq_some_iff.1 hv
    obtain ⟨timer', htimer', hf⟩ := hw u hu
    cases htimer.symm.trans htimer'
    exact ⟨_, update_self .., hf.resume htimely⟩
  · cases hv

theorem timerCall_frame (h : timerCall timers call = .ok (r, timers')) {id : Fin ntimers}
    (hid : call.id ≠ id) : timers' id = timers id := by
  obtain ⟨timer, -, hcases⟩ := timerCall_cases h
  rcases hcases with ⟨-, -, -, rfl⟩ | ⟨-, -, rfl, -⟩ | ⟨-, -, rfl, -⟩ | ⟨-, -, -, rfl⟩ |
    ⟨-, -, rfl⟩
  · exact update_of_ne hid.symm _ _
  · rfl
  · exact update_of_ne hid.symm _ _
  · exact update_of_ne hid.symm _ _
  · exact update_of_ne hid.symm _ _

/-- **Every sequence of calls**, for any of the timers. -/
theorem follows_watchAfter {timers0 : Timers} (id : Fin ntimers) (htimely : Timely calls)
    (h : timerCalls timers0 calls = .ok timers) :
    ∀ v, watchAfter id calls = some v →
      ∃ timer, timers id = some timer ∧ Follows timer v calls := by
  induction calls using List.reverseRecOn generalizing timers with
  | nil => exact fun v hv => by cases hv
  | append_singleton calls call ih =>
    rw [timerCalls_append] at h
    obtain ⟨timers1, hcalls, hlast⟩ := of_bind h
    obtain ⟨⟨r, timers2⟩, hcall, hend⟩ := of_bind hlast
    cases hend
    have hbefore := ih (List.pairwise_append.1 htimely).1 hcalls
    have hwatch : watchAfter id (calls ++ [call]) =
        if call.id = id then Watch.next (watchAfter id calls) call.now call.op
        else watchAfter id calls := by
      rw [watchAfter, List.foldl_append]
      rfl
    by_cases hid : call.id = id
    · rw [if_pos hid] at hwatch
      subst hid
      rw [hwatch]
      exact Follows.step htimely hcall hbefore
    · rw [if_neg hid] at hwatch
      rw [hwatch, timerCall_frame hcall hid]
      intro v hv
      obtain ⟨timer, htimer, hf⟩ := hbefore v hv
      exact ⟨timer, htimer, hf.mono⟩

end

/-- **What a timer returns.**  After any sequence of calls for any timers that the assertions allow,
at tick counts that do not decrease and are within `2 ^ 32` ticks, let `timer_lap` or `timer_stop`
be called for a timer that has been started.  It returns the time for which the timer was active
together with the time for which it was paused.  So it returns the former exactly if each
`timer_resume` since the start was at the same tick as the `timer_stop` before. -/
theorem timerCalls_eq_iff (timers₀ timers timers' : Timers) (calls : List TimerCall)
    (call : TimerCall) (r : Time) (w : Watch) (htimely : Timely (calls ++ [call]))
    (hcalls : timerCalls timers₀ calls = .ok timers)
    (hcall : timerCall timers call = .ok (some r, timers'))
    (hw : watchAfter call.id calls = some w) :
    r = msec2time (w.activeAt call.now + w.paused) ∧
      (r = msec2time (w.activeAt call.now) ↔ w.paused = 0) := by
  obtain ⟨hbefore, -, hpairs⟩ := List.pairwise_append.1 htimely
  obtain ⟨timer, htimer, hf⟩ := follows_watchAfter call.id hbefore hcalls w hw
  obtain ⟨c, hc, hstarted⟩ := hf.started_mem
  have hlt := (hpairs c hc call List.mem_cons_self).2
  have hle := hf.last_le htimely
  have hsum := hf.sum_eq
  have hticks : Word.sub (call.now % 2 ^ 32) timer.startTicks = w.activeAt call.now + w.paused := by
    rw [hf.start_eq, Word.sub, Watch.activeAt]
    omega
  have hbound : w.activeAt call.now + w.paused < 2 ^ 32 := by
    rw [← hticks]
    exact Word.sub_lt _ _
  have hr : r = msec2time (w.activeAt call.now + w.paused) := by
    obtain ⟨timer', htimer', hcases⟩ := timerCall_cases hcall
    cases htimer.symm.trans htimer'
    rw [← hticks]
    rcases hcases with ⟨-, -, hnone, -⟩ | ⟨-, -, -, hsome⟩ | ⟨-, -, -, hsome⟩ | ⟨-, -, hnone, -⟩ |
      ⟨-, hnone, -⟩
    · cases hnone
    · exact Option.some.inj hsome
    · exact Option.some.inj hsome
    · cases hnone
    · cases hnone
  refine ⟨hr, ?_⟩
  rw [hr, msec2time_inj hbound (by omega)]
  omega

/-- The first timer. -/
def timer0 : Fin ntimers := ⟨0, by decide⟩

/-- One timer, as `kmalloc` has left it. -/
def oneTimer : Timers := fun id => if id = timer0 then some ⟨77, 88, false⟩ else none

/-- Started, stopped, and resumed after some ticks. -/
def pauseCalls (start stop resume : Nat) : List TimerCall :=
  [⟨start, timer0, .start⟩, ⟨stop, timer0, .stop⟩, ⟨resume, timer0, .resume⟩]

/-- Started at 5, stopped at 15, resumed at once, and stopped at 35. -/
theorem timerCalls_eq_iff_once : ∃ timers timers',
    timerCalls oneTimer (pauseCalls 5 15 15) = .ok timers ∧
      timerCall timers ⟨35, timer0, .stop⟩ = .ok (some (msec2time 30), timers') ∧
      msec2time 30 = msec2time (Watch.activeAt ⟨5, 10, 0, 15, true⟩ 35) := by
  have htimely : Timely (pauseCalls 5 15 15 ++ [⟨35, timer0, .stop⟩]) := by
    unfold Timely
    decide
  refine ⟨_, _, rfl, rfl, ?_⟩
  exact (timerCalls_eq_iff oneTimer _ _ (pauseCalls 5 15 15) ⟨35, timer0, .stop⟩ (msec2time 30)
    ⟨5, 10, 0, 15, true⟩ htimely rfl rfl rfl).2.2 rfl

/-- **Paused for ten ticks**: started at 0, stopped at 10, resumed at 20 and stopped at 30, the
timer was active for 20 ticks and returns 30. -/
theorem timer_counts_pause : ∃ timers timers',
    timerCalls oneTimer (pauseCalls 0 10 20) = .ok timers ∧
      timerCall timers ⟨30, timer0, .stop⟩ = .ok (some ⟨30, 0, 0, 0⟩, timers') ∧
      watchAfter timer0 (pauseCalls 0 10 20) = some ⟨0, 10, 10, 20, true⟩ ∧
      msec2time (Watch.activeAt ⟨0, 10, 10, 20, true⟩ 30) = ⟨20, 0, 0, 0⟩ :=
  ⟨_, _, rfl, rfl, rfl, rfl⟩

end JinxOS
