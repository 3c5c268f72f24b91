import JinxOS.Synch.Wchan
import JinxOS.Thread.Accounting

/-!
# The scheduler's functions keep the threads

For each function of `thread/thread.c` and `synch/wchan.c` that moves threads: if it is called with
the threads accounted for and it returns, then they are accounted for again, and the sequences have
changed as the function's comment says.  A function that does not return has tripped an assertion or
panicked.

* `threadMakeRunnable_kept`, `threadExorcise_kept`, `threadFork_kept`;
* `wchanWakeone_kept`, `wchanWakeall_kept`;
* `threadSwitch_kept`, in two halves: the current thread goes to a list, and the first runnable
  thread takes its place.
-/

namespace JinxOS

open Function (update_self update_of_ne update_idem update_eq_self update)

variable {T W K : Type}

/-! ## What the functions do to the threads

The CPU and the spinlocks decide whether a call returns.  What a call that returns has done to the
threads does not depend on them. -/

section
variable {s s' : Sched T W K} {t : T}

theorem Sched.acquireActive_ok (h : s.acquireActive = .ok s') : s'.toThreads = s.toThreads := by
  obtain ⟨⟨cpu, lk⟩, -, h⟩ := of_bind h
  cases h
  rfl

theorem Sched.releaseActive_ok (h : s.releaseActive = .ok s') : s'.toThreads = s.toThreads := by
  obtain ⟨⟨cpu, lk⟩, -, h⟩ := of_bind h
  cases h
  rfl

theorem Sched.acquire_ok [DecidableEq K] {k : K} (h : s.acquire k = .ok s') :
    s'.toThreads = s.toThreads := by
  obtain ⟨⟨cpu, lk⟩, -, h⟩ := of_bind h
  cases h
  rfl

theorem Sched.release_ok [DecidableEq K] {k : K} (h : s.release k = .ok s') :
    s'.toThreads = s.toThreads := by
  obtain ⟨⟨cpu, lk⟩, -, h⟩ := of_bind h
  cases h
  rfl

theorem Sched.lockProc_ok {p : Nat} (h : s.lockProc p = .ok s') : s'.toThreads = s.toThreads := by
  obtain ⟨⟨cpu, lk⟩, -, h⟩ := of_bind h
  obtain ⟨⟨cpu, lk⟩, -, h⟩ := of_bind h
  cases h
  rfl

theorem Sched.assertOff_ok (h : s.assertOff = .ok s') : s'.toThreads = s.toThreads := by
  obtain ⟨_, -, h⟩ := of_bind h
  cases h
  rfl

theorem Sched.get_ok {th : Thread} : s.get t = .ok th ↔ s.thread t = some th := by
  cases h : s.thread t <;> simp [Sched.get, h]

theorem Sched.enterActive_ok {b : Bool} (h : s.enterActive b = .ok s') :
    s'.toThreads = s.toThreads := by
  cases b with
  | true =>
    obtain ⟨_, -, h⟩ := of_bind h
    cases h
    rfl
  | false => exact Sched.acquireActive_ok h

theorem Sched.leaveActive_ok {b : Bool} (h : s.leaveActive b = .ok s') :
    s'.toThreads = s.toThreads := by
  cases b with
  | true => cases h; rfl
  | false => exact Sched.releaseActive_ok h

variable [DecidableEq T]

theorem threadDestroy_ok (h : threadDestroy s t = .ok s') : t ≠ s.thisthread ∧
      s'.toThreads = { s.toThreads with thread := update s.thread t none } := by
  obtain ⟨s1, h1, h⟩ := of_bind h
  have hs1 := Sched.assertOff_ok h1
  obtain ⟨_, hne, h⟩ := of_bind h
  obtain ⟨th, -, h⟩ := of_bind h
  obtain ⟨_, -, h⟩ := of_bind h
  obtain ⟨_, -, h⟩ := of_bind h
  obtain ⟨_, -, h⟩ := of_bind h
  obtain ⟨_, -, h⟩ := of_bind h
  cases h
  rw [hs1] at hne
  exact ⟨by simpa [assert_ok] using hne, by rw [hs1]⟩

variable [DecidableEq W]

/-- `thread_make_runnable` appends the thread to the run queue, whether the caller has the lock or
not. -/
theorem threadMakeRunnable_ok {b : Bool} (h : threadMakeRunnable s t b = .ok s') :
    ∃ th links, s.thread t = some th ∧ threadlistAddtail s.links .activeThreads t = .ok links ∧
      s'.toThreads = { s.toThreads with
        thread := update s.thread t (some { th with state := .ready })
        links := links
        madeRunnable := s.madeRunnable ++ [t] } := by
  obtain ⟨th, hth, h⟩ := of_bind h
  obtain ⟨_, -, h⟩ := of_bind h
  obtain ⟨s1, h1, h⟩ := of_bind h
  have hs1 := Sched.enterActive_ok h1
  obtain ⟨s2, h2, h⟩ := of_bind h
  obtain ⟨links, hlinks, h2⟩ := of_bind h2
  cases h2
  dsimp only at h
  split at h
  · exact absurd h (by simp)
  obtain ⟨s3, h3, h⟩ := of_bind h
  have hs3 := Sched.leaveActive_ok h3
  cases h
  rw [hs1] at hlinks hs3
  exact ⟨th, links, Sched.get_ok.1 hth, hlinks, hs3⟩

end

/-! ## The functions keep the threads -/

/-- The threads are accounted for, and in the right order. -/
structure Threads.Kept (q : Threads T W) (ls : ListId W → List T) (hand : List T) : Prop
    extends Accounted q.links q.thread ls hand where
  /-- Threads get the CPU in the order in which they became runnable. -/
  order : q.madeRunnable = q.dispatched ++ ls .activeThreads
  /-- The sleepers of a channel are the last to have gone to sleep there, in that order. -/
  sleepers : ∀ wc, ls (.wcThreads wc) <:+ q.slept wc

section
variable {q : Threads T W} {s s' : Sched T W K} {ls : ListId W → List T} {hand : List T} {t : T}
  {l : ListId W} [DecidableEq T]

theorem Threads.Kept.set (h : q.Kept ls hand) (ht : t ∈ hand) (th : Thread) :
    Threads.Kept { q with thread := update q.thread t (some th) } ls hand :=
  ⟨h.toAccounted.set ht th, h.order, h.sleepers⟩

theorem Threads.Kept.free (h : q.Kept ls (t :: hand)) :
    Threads.Kept { q with thread := update q.thread t none } ls hand :=
  ⟨h.toAccounted.free, h.order, h.sleepers⟩

theorem threadDestroy_kept (h : s.toThreads.Kept ls (t :: hand))
    (hrun : threadDestroy s t = .ok s') :
    s'.toThreads.Kept ls hand ∧ s'.thisthread = s.thisthread := by
  obtain ⟨-, hs'⟩ := threadDestroy_ok hrun
  rw [hs']
  exact ⟨h.free, rfl⟩

theorem procAddthread_kept {proc : Option Nat} {r r' : Nat} (h : s.toThreads.Kept ls hand)
    (ht : t ∈ hand) (hrun : procAddthread s proc t r = .ok (r', s')) :
    s'.toThreads.Kept ls hand ∧ s'.thisthread = s.thisthread := by
  obtain ⟨th, -, hrun⟩ := of_bind hrun
  obtain ⟨_, -, hrun⟩ := of_bind hrun
  obtain ⟨p, -, hrun⟩ := of_bind hrun
  obtain ⟨s1, h1, hrun⟩ := of_bind hrun
  have hs1 := Sched.lockProc_ok h1
  rw [← hs1] at h ⊢
  split at hrun
  · cases hrun
    exact ⟨h, rfl⟩
  · cases hrun
    exact ⟨h.set ht _, rfl⟩

theorem procRemthread_kept {found : Bool} (h : s.toThreads.Kept ls hand) (ht : t ∈ hand)
    (hrun : procRemthread s t found = .ok s') :
    s'.toThreads.Kept ls hand ∧ s'.thisthread = s.thisthread := by
  obtain ⟨th, -, hrun⟩ := of_bind hrun
  obtain ⟨_, -, hrun⟩ := of_bind hrun
  obtain ⟨p, -, hrun⟩ := of_bind hrun
  obtain ⟨s1, h1, hrun⟩ := of_bind hrun
  have hs1 := Sched.lockProc_ok h1
  rw [← hs1] at h ⊢
  split at hrun
  · cases hrun
    exact ⟨h.set ht _, rfl⟩
  · exact absurd hrun (by simp)

variable [DecidableEq W]

theorem Threads.Kept.take {links' : Links T (ListId W)} (h : q.Kept ls hand)
    (hl : l ≠ .activeThreads) (hok : threadlistRemhead q.links l = .ok (some t, links')) :
    ∃ ts, ls l = t :: ts ∧
      Threads.Kept { q with links := links' } (update ls l ts) (t :: hand) ∧
      ∃ th, q.thread t = some th ∧ th.state = l.state := by
  obtain ⟨ts, hts, hacc, hth⟩ := h.toAccounted.take hok
  refine ⟨ts, hts, ⟨hacc, ?_, ?_⟩, hth⟩
  · rw [update_of_ne hl.symm]
    exact h.order
  · intro wc
    by_cases hwc : .wcThreads wc = l
    · have hsuf := h.sleepers wc
      rw [hwc, hts] at hsuf
      rw [hwc, update_self]
      exact (List.suffix_cons t ts).trans hsuf
    · rw [update_of_ne hwc]
      exact h.sleepers wc

theorem Threads.Kept.park {links' : Links T (ListId W)} {th : Thread} (h : q.Kept ls (t :: hand))
    (hact : l ≠ .activeThreads) (hwc : ∀ wc, l ≠ .wcThreads wc) (hth : q.thread t = some th)
    (hst : th.state = l.state) (hok : threadlistAddtail q.links l t = .ok links') :
    Threads.Kept { q with links := links' } (update ls l (ls l ++ [t])) hand := by
  refine ⟨h.toAccounted.park hth hst hok, ?_, ?_⟩
  · rw [update_of_ne hact.symm]
    exact h.order
  · intro wc
    rw [update_of_ne (hwc wc).symm]
    exact h.sleepers wc

theorem Sched.remhead_ok {o : Option T} (h : s.remhead l = .ok (o, s')) :
    ∃ links', threadlistRemhead s.links l = .ok (o, links') ∧ s' = { s with links := links' } := by
  obtain ⟨⟨o', links'⟩, hok, h⟩ := of_bind h
  cases h
  exact ⟨links', hok, rfl⟩

theorem threadMakeRunnable_kept {b : Bool} (h : s.toThreads.Kept ls (t :: hand))
    (hrun : threadMakeRunnable s t b = .ok s') :
    s'.toThreads.Kept (update ls .activeThreads (ls .activeThreads ++ [t])) hand ∧
      s'.thisthread = s.thisthread := by
  obtain ⟨th, links, hth, hlinks, hs'⟩ := threadMakeRunnable_ok hrun
  rw [hs']
  have hset := (h.set List.mem_cons_self { th with state := .ready }).toAccounted
  refine ⟨⟨hset.park (update_self ..) rfl hlinks, ?_, ?_⟩, rfl⟩
  · rw [update_self, h.order, List.append_assoc]
  · intro wc
    rw [update_of_ne (by simp)]
    exact h.sleepers wc

/-- The loop frees the threads on the list one by one; the current thread is none of them. -/
theorem threadExorciseLoop_kept (fuel : Nat) :
    ∀ {s : Sched T W K} {ls : ListId W → List T}, s.toThreads.Kept ls hand →
      threadExorciseLoop fuel s = .ok s' →
      s'.toThreads.Kept (update ls .zombieThreads []) hand ∧
        s'.thisthread = s.thisthread ∧ s.thisthread ∉ ls .zombieThreads ∧
        ∀ t, s'.thread t = if t ∈ ls .zombieThreads then none else s.thread t := by
  induction fuel with
  | zero => exact fun _ hrun => absurd hrun (by simp [threadExorciseLoop])
  | succ fuel ih =>
    intro s ls h hrun
    obtain ⟨⟨o, s1⟩, h1, hrun⟩ := of_bind hrun
    obtain ⟨links', hrem, rfl⟩ := Sched.remhead_ok h1
    cases o with
    | none =>
      obtain ⟨hnil, rfl⟩ := h.take_none hrem
      cases hrun
      refine ⟨?_, rfl, by simp [hnil], by simp [hnil]⟩
      rw [← hnil, update_eq_self]
      exact h
    | some t =>
      obtain ⟨ts, hts, hkept, -⟩ := h.take (by simp) hrem
      obtain ⟨_, hne, hrun⟩ := of_bind hrun
      obtain ⟨th, -, hrun⟩ := of_bind hrun
      obtain ⟨_, -, hrun⟩ := of_bind hrun
      obtain ⟨s2, h2, hrun⟩ := of_bind hrun
      obtain ⟨hne, hs2⟩ := threadDestroy_ok h2
      have hkept2 := hkept.free
      rw [← hs2] at hkept2
      obtain ⟨hkept', hthis, hnot, hthread⟩ := ih hkept2 hrun
      rw [update_self, hs2] at hnot
      rw [update_idem] at hkept'
      refine ⟨hkept', hthis.trans (by rw [hs2]), ?_, ?_⟩
      · rw [hts, List.mem_cons]
        exact fun hor => hor.elim (fun he => hne he.symm) hnot
      · intro x
        rw [hthread x, update_self, hs2, hts]
        by_cases hx : x = t
        · simp [hx]
        · simp [hx]

/-- **`thread_exorcise`** destroys the zombies. -/
theorem threadExorcise_kept (h : s.toThreads.Kept ls hand) (hrun : threadExorcise s = .ok s') :
    s'.toThreads.Kept (update ls .zombieThreads []) hand ∧
      s'.thisthread = s.thisthread ∧ s.thisthread ∉ ls .zombieThreads ∧
      ∀ t, s'.thread t = if t ∈ ls .zombieThreads then none else s.thread t := by
  obtain ⟨s1, h1, hrun⟩ := of_bind hrun
  have hs1 := Sched.assertOff_ok h1
  rw [← hs1] at h ⊢
  exact threadExorciseLoop_kept _ h hrun

/-- **`wchan_wakeone`** makes the first sleeper runnable, if there is one. -/
theorem wchanWakeone_kept {wc : W} {lk : K} (h : s.toThreads.Kept ls hand)
    (hrun : wchanWakeone s wc lk = .ok s') :
    s'.thisthread = s.thisthread ∧ ∃ ls', s'.toThreads.Kept ls' hand ∧
      ls' (.wcThreads wc) = (ls (.wcThreads wc)).tail ∧
      ls' .activeThreads = ls .activeThreads ++ (ls (.wcThreads wc)).head?.toList ∧
      ∀ l, l ≠ .activeThreads → l ≠ .wcThreads wc → ls' l = ls l := by
  obtain ⟨_, -, hrun⟩ := of_bind hrun
  obtain ⟨⟨o, s1⟩, h1, hrun⟩ := of_bind hrun
  obtain ⟨links', hrem, rfl⟩ := Sched.remhead_ok h1
  cases o with
  | none =>
    obtain ⟨hnil, rfl⟩ := h.take_none hrem
    cases hrun
    exact ⟨rfl, ls, h, by simp [hnil], by simp [hnil], fun _ _ _ => rfl⟩
  | some t =>
    obtain ⟨ts, hts, hkept, -⟩ := h.take (by simp) hrem
    obtain ⟨hkept', hthis⟩ := threadMakeRunnable_kept hkept hrun
    refine ⟨hthis, _, hkept', ?_, ?_, ?_⟩
    · simp [hts]
    · simp [hts]
    · intro l hact hwc
      rw [update_of_ne hact, update_of_ne hwc]

/-- The first loop of `wchan_wakeall` moves the sleepers to the private list. -/
theorem wchanGrab_kept {wc : W} (fuel : Nat) :
    ∀ {s : Sched T W K} {ls : ListId W → List T}, s.toThreads.Kept ls hand →
      wchanGrab wc fuel s = .ok s' →
      s'.toThreads.Kept (update (update ls (.wcThreads wc) []) .wakeallList
        (ls .wakeallList ++ ls (.wcThreads wc))) hand ∧ s'.thisthread = s.thisthread := by
  induction fuel with
  | zero => exact fun _ hrun => absurd hrun (by simp [wchanGrab])
  | succ fuel ih =>
    intro s ls h hrun
    obtain ⟨⟨o, s1⟩, h1, hrun⟩ := of_bind hrun
    obtain ⟨links', hrem, rfl⟩ := Sched.remhead_ok h1
    cases o with
    | none =>
      obtain ⟨hnil, rfl⟩ := h.take_none hrem
      cases hrun
      refine ⟨?_, rfl⟩
      rw [hnil, ← hnil, update_eq_self, hnil, List.append_nil, update_eq_self]
      exact h
    | some t =>
      obtain ⟨ts, hts, hkept, th, hth, hst⟩ := h.take (by simp) hrem
      obtain ⟨s2, h2, hrun⟩ := of_bind hrun
      obtain ⟨links2, hlinks, h2⟩ := of_bind h2
      cases h2
      have hkept2 := hkept.park (l := .wakeallList) (by simp) (by simp) hth hst hlinks
      obtain ⟨hkept', hthis⟩ := ih hkept2 hrun
      refine ⟨?_, hthis⟩
      convert hkept' using 1
      funext l
      by_cases hl : l = .wakeallList
      · simp [hl, hts]
      · by_cases hl' : l = .wcThreads wc
        · simp [hl']
        · simp [hl, hl']

/-- The second loop of `wchan_wakeall` makes the threads on the private list runnable. -/
theorem wchanWakeGrabbed_kept (fuel : Nat) :
    ∀ {s : Sched T W K} {ls : ListId W → List T}, s.toThreads.Kept ls hand →
      wchanWakeGrabbed fuel s = .ok s' →
      s'.toThreads.Kept (update (update ls .wakeallList []) .activeThreads
        (ls .activeThreads ++ ls .wakeallList)) hand ∧ s'.thisthread = s.thisthread := by
  induction fuel with
  | zero => exact fun _ hrun => absurd hrun (by simp [wchanWakeGrabbed])
  | succ fuel ih =>
    intro s ls h hrun
    obtain ⟨⟨o, s1⟩, h1, hrun⟩ := of_bind hrun
    obtain ⟨links', hrem, rfl⟩ := Sched.remhead_ok h1
    cases o with
    | none =>
      obtain ⟨hnil, rfl⟩ := h.take_none hrem
      cases hrun
      refine ⟨?_, rfl⟩
      rw [hnil, ← hnil, update_eq_self, hnil, List.append_nil, update_eq_self]
      exact h
    | some t =>
      obtain ⟨ts, hts, hkept, -⟩ := h.take (by simp) hrem
      obtain ⟨s2, h2, hrun⟩ := of_bind hrun
      obtain ⟨hkept2, hthis2⟩ := threadMakeRunnable_kept hkept h2
      obtain ⟨hkept', hthis⟩ := ih hkept2 hrun
      refine ⟨?_, hthis.trans hthis2⟩
      convert hkept' using 1
      funext l
      by_cases hl : l = .activeThreads
      · simp [hl, hts]
      · by_cases hl' : l = .wakeallList
        · simp [hl']
        · simp [hl, hl']

/-- **`wchan_wakeall`** appends the sleepers to the run queue, in order. -/
theorem wchanWakeall_kept {wc : W} {lk : K} (h : s.toThreads.Kept ls hand)
    (hlist : ls .wakeallList = []) (hrun : wchanWakeall s wc lk = .ok s') :
    s'.thisthread = s.thisthread ∧ ∃ ls', s'.toThreads.Kept ls' hand ∧
      ls' (.wcThreads wc) = [] ∧
      ls' .activeThreads = ls .activeThreads ++ ls (.wcThreads wc) ∧
      ∀ l, l ≠ .activeThreads → l ≠ .wcThreads wc → ls' l = ls l := by
  obtain ⟨_, -, hrun⟩ := of_bind hrun
  rw [(threadlistInit_spec h.repr hlist).1] at hrun
  obtain ⟨s1, h1, hrun⟩ := of_bind hrun
  obtain ⟨s2, h2, hrun⟩ := of_bind hrun
  obtain ⟨_, -, hrun⟩ := of_bind hrun
  cases hrun
  obtain ⟨hkept1, hthis1⟩ := wchanGrab_kept _ h h1
  obtain ⟨hkept2, hthis2⟩ := wchanWakeGrabbed_kept _ hkept1 h2
  refine ⟨hthis2.trans hthis1, _, hkept2, ?_, ?_, ?_⟩
  · simp
  · simp [hlist]
  · intro l hact hwc
    by_cases hl : l = .wakeallList
    · simp [hl, hlist]
    · simp [hl, hact, hwc]

/-! ### Forking -/

/-- A thread that has been created is either made runnable or destroyed. -/
theorem threadForkNew_kept {e : ForkEnv T} {on : Bool} {r : Nat}
    (h : s.toThreads.Kept ls (t :: hand)) (hrun : threadForkNew s e on t = .ok (r, s')) :
    s'.thisthread = s.thisthread ∧ ∃ ls', s'.toThreads.Kept ls' hand ∧
      ls' .wakeallList = ls .wakeallList := by
  obtain ⟨stack, -, hrun⟩ := of_bind hrun
  obtain ⟨th, -, hrun⟩ := of_bind hrun
  have h1 := h.set List.mem_cons_self { th with stack := some stack }
  obtain ⟨_, -, hrun⟩ := of_bind hrun
  obtain ⟨th1, -, hrun⟩ := of_bind hrun
  have h2 := h1.set List.mem_cons_self { th1 with cpu := s.cpu.thiscpu }
  split at hrun
  · obtain ⟨s3, h3, hrun⟩ := of_bind hrun
    cases hrun
    obtain ⟨hkept, hthis⟩ := threadDestroy_kept h2 h3
    exact ⟨hthis, ls, hkept, rfl⟩
  · obtain ⟨this, -, hrun⟩ := of_bind hrun
    obtain ⟨⟨r3, s3⟩, h3, hrun⟩ := of_bind hrun
    obtain ⟨hkept3, hthis3⟩ := procAddthread_kept h2 List.mem_cons_self h3
    dsimp only at hrun
    split at hrun
    · obtain ⟨s4, h4, hrun⟩ := of_bind hrun
      cases hrun
      obtain ⟨hkept, hthis⟩ := threadDestroy_kept hkept3 h4
      exact ⟨hthis.trans hthis3, ls, hkept, rfl⟩
    · obtain ⟨s4, h4, hrun⟩ := of_bind hrun
      cases hrun
      obtain ⟨hkept, hthis⟩ := threadMakeRunnable_kept hkept3 h4
      exact ⟨hthis.trans hthis3, _, hkept, update_of_ne (by simp) _ _⟩

/-- **`thread_fork`** keeps the threads if `kmalloc` does not return a thread that exists. -/
theorem threadFork_kept {e : ForkEnv T} {r : Nat} (h : s.toThreads.Kept ls hand)
    (hfresh : ∀ t ∈ e.thread, s.thread t = none) (hrun : threadFork s e = .ok (r, s')) :
    s'.thisthread = s.thisthread ∧ ∃ ls', s'.toThreads.Kept ls' hand ∧
      ls' .wakeallList = ls .wakeallList := by
  obtain ⟨p, named, page, joinable, csem, psem, proc, result⟩ := e
  cases p with
  | none =>
    cases hrun
    exact ⟨rfl, ls, h, rfl⟩
  | some t =>
    cases named with
    | false =>
      cases hrun
      exact ⟨rfl, ls, h, rfl⟩
    | true =>
      have hnew := h.toAccounted.create (hfresh t rfl) ⟨.ready, none, none, none⟩
      obtain ⟨s1, hs1, hrun⟩ : ∃ s1 : Sched T W K, s1.toThreads = { s.toThreads with
          thread := update s.thread t (some ⟨.ready, none, none, none⟩)
          links := threadlistnodeInit s.links t } ∧
          threadForkNew s1 _ s.cpu.intr t = .ok (r, s') := ⟨_, rfl, hrun⟩
      have hkept1 : s1.toThreads.Kept ls (t :: hand) := by
        rw [hs1]
        exact ⟨hnew, h.order, h.sleepers⟩
      obtain ⟨hthis, hkept'⟩ := threadForkNew_kept hkept1 hrun
      exact ⟨hthis.trans (by rw [hs1]), hkept'⟩

/-! ### Switching

`thread_switch` puts the current thread on a list before it updates its state.  The threads are
accounted for again after the first assignment of the second half. -/

/-- The second half gives the CPU to the first thread of the run queue. -/
theorem threadSwitchNext_kept {newstate : ThreadState}
    (h : ∀ th, s.thread s.thisthread = some th → Threads.Kept
      { s.toThreads with
        thread := update s.thread s.thisthread (some { th with state := newstate }) } ls [])
    (hrun : threadSwitchNext s newstate = .ok s') :
    ∃ rest, ls .activeThreads = s'.thisthread :: rest ∧
      s'.toThreads.Kept (update ls .activeThreads rest) [s'.thisthread] := by
  obtain ⟨th, hth, hrun⟩ := of_bind hrun
  have hkept := h th (Sched.get_ok.1 hth)
  obtain ⟨⟨o, s1⟩, h1, hrun⟩ := of_bind hrun
  obtain ⟨links', hrem, rfl⟩ := Sched.remhead_ok h1
  cases o with
  | none =>
    obtain ⟨_, -, hrun⟩ := of_bind hrun
    exact absurd hrun (by simp)
  | some next =>
    obtain ⟨rest, hrest, hacc, -⟩ := hkept.toAccounted.take hrem
    obtain ⟨th', -, hrun⟩ := of_bind hrun
    obtain ⟨_, -, hrun⟩ := of_bind hrun
    obtain ⟨s2, h2, hrun⟩ := of_bind hrun
    have hs2 := Sched.releaseActive_ok h2
    cases hrun
    rw [hs2]
    refine ⟨rest, hrest, hacc.set List.mem_cons_self _, ?_, ?_⟩
    · rw [update_self, List.append_assoc, List.singleton_append, ← hrest]
      exact hkept.order
    · intro wc
      rw [update_of_ne (by simp)]
      exact hkept.sleepers wc

variable [DecidableEq K]

section
variable {newstate : ThreadState} {wc : Option W} {lk : Option K}

/-- After the first half the current thread is on a list, and nothing is in the hand. -/
theorem threadSwitchLeave_kept {b : Bool} (h : s.toThreads.Kept ls [s.thisthread])
    (hrun : threadSwitchLeave s newstate wc lk = .ok (b, s')) :
    s'.thisthread = s.thisthread ∧ (b = false → s'.toThreads = s.toThreads) ∧
      (b = true → ∀ th, s'.thread s.thisthread = some th → ∃ ls', Threads.Kept { s'.toThreads with
          thread := update s'.thread s.thisthread (some { th with state := newstate }) }
          ls' [] ∧ ls' .wakeallList = ls .wakeallList) := by
  cases newstate with
  | run => exact absurd hrun (by simp [threadSwitchLeave])
  | ready =>
    rw [threadSwitchLeave] at hrun
    split at hrun
    · obtain ⟨s1, h1, hrun⟩ := of_bind hrun
      cases hrun
      have hs1 := Sched.releaseActive_ok h1
      exact ⟨by rw [hs1], fun _ => hs1, by simp⟩
    · obtain ⟨s1, h1, hrun⟩ := of_bind hrun
      cases hrun
      obtain ⟨hkept, hthis⟩ := threadMakeRunnable_kept h h1
      refine ⟨hthis, by simp, fun _ th hth => ⟨update ls .activeThreads
        (ls .activeThreads ++ [s.thisthread]), ?_, update_of_ne (by simp) _ _⟩⟩
      -- `thread_make_runnable` has set the state already
      obtain ⟨th', hth', hst⟩ := hkept.state .activeThreads s.thisthread (by simp)
      obtain rfl : th' = th := Option.some.inj (hth'.symm.trans hth)
      have hready : { th' with state := .ready } = th' := by
        rw [show ThreadState.ready = th'.state from hst.symm]
      rw [hready, ← hth, update_eq_self]
      exact hkept
  | sleep =>
    obtain ⟨wc, -, hrun⟩ := of_bind hrun
    obtain ⟨s1, h1, hrun⟩ := of_bind hrun
    obtain ⟨links', hlinks, h1⟩ := of_bind h1
    cases h1
    obtain ⟨lk, -, hrun⟩ := of_bind hrun
    obtain ⟨s2, h2, hrun⟩ := of_bind hrun
    cases hrun
    have hs2 := Sched.release_ok h2
    rw [hs2]
    refine ⟨rfl, by simp, fun _ th _ => ⟨update ls (.wcThreads wc)
      (ls (.wcThreads wc) ++ [s.thisthread]), ⟨?_, ?_, ?_⟩, update_of_ne (by simp) _ _⟩⟩
    · exact (h.toAccounted.set List.mem_cons_self { th with state := .sleep }).park
        (update_self ..) rfl hlinks
    · rw [update_of_ne (by simp)]
      exact h.order
    · intro wc'
      by_cases hwc : wc' = wc
      · subst hwc
        obtain ⟨pre, hpre⟩ := h.sleepers wc'
        exact ⟨pre, by simp [← hpre]⟩
      · simpa [hwc] using h.sleepers wc'
  | zombie =>
    obtain ⟨s1, h1, hrun⟩ := of_bind hrun
    obtain ⟨links', hlinks, h1⟩ := of_bind h1
    cases h1
    cases hrun
    refine ⟨rfl, by simp, fun _ th _ => ⟨update ls .zombieThreads
      (ls .zombieThreads ++ [s.thisthread]), ?_, update_of_ne (by simp) _ _⟩⟩
    exact (h.set List.mem_cons_self { th with state := .zombie }).park
      (by simp) (by simp) (update_self ..) rfl hlinks

/-- **`thread_switch`** keeps the threads. -/
theorem threadSwitch_kept (h : s.toThreads.Kept ls [s.thisthread])
    (hrun : threadSwitch s newstate wc lk = .ok s') :
    ∃ ls', s'.toThreads.Kept ls' [s'.thisthread] ∧ ls' .wakeallList = ls .wakeallList := by
  obtain ⟨s1, h1, hrun⟩ := of_bind hrun
  rw [← Sched.assertOff_ok h1] at h
  obtain ⟨_, -, hrun⟩ := of_bind hrun
  obtain ⟨_, -, hrun⟩ := of_bind hrun
  obtain ⟨s2, h2, hrun⟩ := of_bind hrun
  obtain ⟨ls2, hkept2, hlist2⟩ : ∃ ls2, s2.toThreads.Kept ls2 [s2.thisthread] ∧
      ls2 .wakeallList = ls .wakeallList := by
    split at h2
    · obtain ⟨hkept, hthis, -⟩ := threadExorcise_kept h h2
      exact ⟨_, hthis ▸ hkept, update_of_ne (by simp) _ _⟩
    · cases h2
      exact ⟨ls, h, rfl⟩
  split at hrun
  · cases hrun
    exact ⟨ls2, hkept2, hlist2⟩
  obtain ⟨_, -, hrun⟩ := of_bind hrun
  obtain ⟨s3, h3, hrun⟩ := of_bind hrun
  rw [← Sched.acquireActive_ok h3] at hkept2
  obtain ⟨⟨b, s4⟩, h4, hrun⟩ := of_bind hrun
  obtain ⟨hthis, hstay, hleave⟩ := threadSwitchLeave_kept hkept2 h4
  cases b with
  | false =>
    cases hrun
    exact ⟨ls2, (hstay rfl).symm ▸ hkept2, hlist2⟩
  | true =>
    obtain ⟨th, hth, -⟩ := of_bind hrun
    obtain ⟨ls4, hkept4, hlist4⟩ := hleave rfl th (hthis ▸ Sched.get_ok.1 hth)
    have hparked : ∀ th', s4.thread s4.thisthread = some th' → Threads.Kept { s4.toThreads with
        thread := update s4.thread s4.thisthread (some { th' with state := newstate }) }
        ls4 [] := by
      intro th' hth'
      rw [Option.some.inj (hth'.symm.trans (Sched.get_ok.1 hth)), hthis]
      exact hkept4
    obtain ⟨rest, -, hkept'⟩ := threadSwitchNext_kept hparked hrun
    refine ⟨_, hkept', ?_⟩
    rw [update_of_ne (by simp), hlist4, hlist2]

end

end

end JinxOS
