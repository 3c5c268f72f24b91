import JinxOS.Proc.Proc

/-!
# Processes and their threads

A thread points to its process, and the array of the process lists its threads.  The two agree
(`Members`) in every state that the calls of `proc/proc.c` can reach: a thread is in the array of a
process once if it points to it, and not at all otherwise.  So the loop of `proc_remthread` finds
the thread, and the panic behind it is never reached (`membersRun`).

`proc_addthread` is the only call that appends to an array and `proc_remthread` the only one that
removes, and each of the two changes `t->proc` as well; a process is destroyed when its array is
empty.
-/

namespace JinxOS

open Function (update_self update_of_ne update)

variable {P T : Type} [DecidableEq P] [DecidableEq T]

/-! ## The loop of `proc_remthread` -/

theorem threadIndex_eq {a : KArray T} (h : a.Wf) (t : T) :
    ∀ k i, i + k = a.num → threadIndex a t k i =
      .ok (if t ∈ a.elems.drop i then some (i + (a.elems.drop i).idxOf t) else none) := by
  intro k
  induction k with
  | zero =>
    intro i hi
    have hlen := h.length_elems
    rw [threadIndex, List.drop_of_length_le (by omega), if_neg List.not_mem_nil]
  | succ k ih =>
    intro i hi
    have hlt : i < a.elems.length := by
      rw [h.length_elems]
      omega
    rw [threadIndex, arrayGet_ok (List.getElem?_eq_getElem hlt), ok_bind,
      List.drop_eq_getElem_cons hlt]
    by_cases ht : a.elems[i] = t
    · rw [if_pos ht, ht, if_pos List.mem_cons_self, List.idxOf_cons_self]
      rfl
    · rw [if_neg ht, ih (i + 1) (by omega), List.idxOf_cons_ne _ ht]
      simp only [List.mem_cons, Ne.symm ht, false_or]
      rw [show i + 1 + (a.elems.drop (i + 1)).idxOf t =
        i + ((a.elems.drop (i + 1)).idxOf t).succ by omega]

theorem threadIndex_found {a : KArray T} (h : a.Wf) {t : T} (ht : t ∈ a.elems) :
    threadIndex a t (arrayNum a) 0 = .ok (some (a.elems.idxOf t)) := by
  have hfound := threadIndex_eq h t a.num 0 (Nat.zero_add _)
  rw [List.drop_zero, if_pos ht, Nat.zero_add] at hfound
  exact hfound

/-! ## The two agree -/

/-- The arrays list the threads that point to their process. -/
structure Members (proc : P → Option (Proc T)) (tproc : T → Option P) : Prop where
  wf : ∀ p o, proc p = some o → o.threads.Wf
  count : ∀ p o t, proc p = some o → o.threads.elems.count t = if tproc t = some p then 1 else 0
  live : ∀ t p, tproc t = some p → ∃ o, proc p = some o

section
variable {proc : P → Option (Proc T)} {tproc : T → Option P} {p : P} {o o' : Proc T} {t : T}

section
variable (h : Members proc tproc)
include h

theorem Members.mem_iff (hp : proc p = some o) : t ∈ o.threads.elems ↔ tproc t = some p := by
  rw [← List.count_pos_iff, h.count p o t hp]
  split <;> simp [*]

theorem Members.nodup (hp : proc p = some o) : o.threads.elems.Nodup := by
  refine List.nodup_iff_count_le_one.2 fun t => ?_
  rw [h.count p o t hp]
  split <;> decide

theorem Members.set {tproc' : T → Option P} (hwf : o'.threads.Wf)
    (hcount : ∀ u, o'.threads.elems.count u = if tproc' u = some p then 1 else 0)
    (hother : ∀ u q, q ≠ p → (tproc' u = some q ↔ tproc u = some q)) :
    Members (update proc p (some o')) tproc' := by
  refine ⟨fun q o hq => ?_, fun q o u hq => ?_, fun u q hu => ?_⟩
  · by_cases hqp : q = p
    · subst hqp
      rw [update_self] at hq
      exact Option.some.inj hq ▸ hwf
    · rw [update_of_ne hqp] at hq
      exact h.wf q o hq
  · by_cases hqp : q = p
    · subst hqp
      rw [update_self] at hq
      exact Option.some.inj hq ▸ hcount u
    · rw [update_of_ne hqp] at hq
      rw [h.count q o u hq]
      exact if_congr (hother u q hqp).symm rfl rfl
  · by_cases hqp : q = p
    · subst hqp
      exact ⟨o', update_self ..⟩
    · obtain ⟨o, ho⟩ := h.live u q ((hother u q hqp).1 hu)
      exact ⟨o, (update_of_ne hqp ..).trans ho⟩

theorem Members.set_same (hp : proc p = some o)
    (hthreads : o'.threads = o.threads) : Members (update proc p (some o')) tproc :=
  h.set (hthreads ▸ h.wf p o hp) (fun u => hthreads ▸ h.count p o u hp) fun _ _ _ => Iff.rfl

theorem Members.create (hp : proc p = none)
    (hthreads : o'.threads = arrayCreate) : Members (update proc p (some o')) tproc := by
  refine h.set (hthreads ▸ arrayCreate_wf) (fun u => ?_) fun _ _ _ => Iff.rfl
  rw [hthreads, if_neg]
  · rfl
  · intro hu
    obtain ⟨o, ho⟩ := h.live u p hu
    exact nomatch hp.symm.trans ho

theorem Members.destroy (hp : proc p = some o) (hnum : o.threads.num = 0) :
    Members (update proc p none) tproc := by
  have hnone : ∀ u, tproc u ≠ some p := by
    intro u hu
    have hmem := (h.mem_iff hp).2 hu
    rw [KArray.elems, hnum, List.take_zero] at hmem
    cases hmem
  have hne : ∀ q o', update proc p none q = some o' → proc q = some o' := by
    intro q o' hq
    by_cases hqp : q = p
    · subst hqp
      simp at hq
    · rwa [update_of_ne hqp] at hq
  refine ⟨fun q o' hq => h.wf q o' (hne q o' hq), fun q o' u hq => h.count q o' u (hne q o' hq),
    fun u q hu => ?_⟩
  obtain ⟨o', ho'⟩ := h.live u q hu
  have hqp : q ≠ p := by
    rintro rfl
    exact hnone u hu
  exact ⟨o', (update_of_ne hqp ..).trans ho'⟩

theorem Members.add (hp : proc p = some o) (ht : tproc t = none)
    (hwf : o'.threads.Wf) (helems : o'.threads.elems = o.threads.elems ++ [t]) :
    Members (update proc p (some o')) (update tproc t (some p)) := by
  refine h.set hwf (fun u => ?_) fun u q hq => ?_
  · rw [helems, List.count_append, h.count p o u hp]
    by_cases hut : u = t
    · subst hut
      rw [update_self, ht, List.count_singleton_self, if_neg (fun he => nomatch he), if_pos rfl]
    · rw [update_of_ne hut, List.count_eq_zero_of_not_mem (by simpa using hut), Nat.add_zero]
  · by_cases hut : u = t
    · subst hut
      rw [update_self, ht]
      simpa using Ne.symm hq
    · rw [update_of_ne hut]

theorem Members.remove (hp : proc p = some o) (ht : tproc t = some p)
    (hwf : o'.threads.Wf) (helems : o'.threads.elems = o.threads.elems.filter (· != t)) :
    Members (update proc p (some o')) (update tproc t none) := by
  refine h.set hwf (fun u => ?_) fun u q hq => ?_
  · rw [helems]
    by_cases hut : u = t
    · subst hut
      rw [update_self, if_neg (fun he => nomatch he)]
      exact List.count_eq_zero_of_not_mem (by simp)
    · rw [update_of_ne hut, List.count_filter (by simpa using hut), h.count p o u hp]
  · by_cases hut : u = t
    · subst hut
      rw [update_self, ht]
      simpa using Ne.symm hq
    · rw [update_of_ne hut]

end

end

/-! ## The calls -/

section
variable {s s' : ProcSys P T} {p : P} {t : T}

/-- The array of a process and the pointers of the threads agree. -/
def ProcSys.Consistent (s : ProcSys P T) : Prop := Members s.proc s.tproc

/-- **`proc_addthread`** appends the thread, or fails and changes nothing. -/
theorem ProcSys.Consistent.addthread [Inhabited T] {res : Nat} (h : s.Consistent)
    (hadd : s.addthread p t = .ok (res, s')) : s'.Consistent := by
  obtain ⟨_, hnone, hadd⟩ := of_bind hadd
  obtain ⟨o, ho, hadd⟩ := of_bind hadd
  have hnone : s.tproc t = none := Option.isNone_iff_eq_none.1 (assert_ok.1 hnone)
  have hp := liveProc_ok ho
  rcases arrayAdd_cases (Members.wf h p o hp) t with ⟨-, b, hb, hwf, helems⟩ | ⟨-, hfull⟩
  · rw [hb, ok_bind] at hadd
    dsimp only at hadd
    rw [if_neg (by decide)] at hadd
    cases hadd
    exact Members.add h hp hnone hwf helems
  · rw [hfull, ok_bind] at hadd
    dsimp only at hadd
    rw [if_pos (by decide)] at hadd
    cases hadd
    exact Members.set_same h hp rfl

/-- **`proc_remthread`** of a thread that has a process takes it out of the array, and returns. -/
theorem ProcSys.Consistent.remthread (h : s.Consistent) (ht : s.tproc t = some p) :
    ∃ o b, s.proc p = some o ∧ b.Wf ∧ b.elems = o.threads.elems.filter (· != t) ∧
      s.remthread t = .ok { s.setProc p (some { o with threads := b }) with
        tproc := update s.tproc t none } := by
  obtain ⟨o, ho⟩ := Members.live h t p ht
  have hmem : t ∈ o.threads.elems := (Members.mem_iff h ho).2 ht
  have hwf := Members.wf h p o ho
  have hlt : o.threads.elems.idxOf t < o.threads.num := by
    rw [← hwf.length_elems]
    exact List.idxOf_lt_length_of_mem hmem
  obtain ⟨b, hb, hbwf, helems⟩ := arrayRemove_ok hwf hlt
  rw [List.eraseIdx_idxOf_eq_erase, (Members.nodup h ho).erase_eq_filter] at helems
  refine ⟨o, b, ho, hbwf, helems, ?_⟩
  rw [ProcSys.remthread, ht, Option.isSome_some, assert_true, ok_bind, deref_some,
    ok_bind, liveProc, ho]
  rw [ok_bind, threadIndex_found hwf hmem, ok_bind]
  dsimp only
  rw [hb, ok_bind]

theorem ProcSys.Consistent.procCreate {name : String} (h : s.Consistent) (hp : s.proc p = none)
    (hcreate : procCreate s t p name = .ok s') : s'.Consistent := by
  obtain ⟨⟨pid, r⟩, -, hcreate⟩ := of_bind hcreate
  cases hcreate
  exact Members.create h hp rfl

theorem ProcSys.Consistent.procDestroy (h : s.Consistent)
    (hdestroy : procDestroy s t p = .ok s') : s'.Consistent := by
  obtain ⟨_, -, hdestroy⟩ := of_bind hdestroy
  obtain ⟨o, ho, hdestroy⟩ := of_bind hdestroy
  obtain ⟨_, hclean, hdestroy⟩ := of_bind hdestroy
  obtain ⟨r, -, hdestroy⟩ := of_bind hdestroy
  cases hdestroy
  obtain ⟨_, hnum, -⟩ := of_bind hclean
  exact Members.destroy h (liveProc_ok ho) (by simpa [assert_ok] using hnum)

variable [Inhabited T]

theorem ProcSys.Consistent.initProc {kpd : Nat} (h : s.Consistent) (hp : s.proc p = none)
    (hinit : initProc s t p kpd = .ok s') : s'.Consistent := by
  obtain ⟨_, -, hinit⟩ := of_bind hinit
  obtain ⟨s1, hcreate, hinit⟩ := of_bind hinit
  obtain ⟨o, ho, hinit⟩ := of_bind hinit
  obtain ⟨⟨result, s2⟩, hadd, hinit⟩ := of_bind hinit
  have h1 : s1.Consistent := h.procCreate hp hcreate
  have hset : (s1.setProc p (some { o with pageDirectory := some kpd })).Consistent :=
    Members.set_same h1 (liveProc_ok ho) rfl
  have h2 : s2.Consistent := hset.addthread hadd
  dsimp only at hinit
  split at hinit
  · exact nomatch hinit
  · obtain ⟨_, -, hinit⟩ := of_bind hinit
    obtain ⟨o2, ho2, hinit⟩ := of_bind hinit
    cases hinit
    exact Members.set_same h2 (liveProc_ok ho2) rfl

theorem ProcSys.Consistent.procProgram {name : String} {pgdir : Option Nat} {thread : T}
    {res : Bool} (h : s.Consistent) (hp : s.proc p = none)
    (hprog : procProgram s t p name pgdir thread = .ok (res, s')) : s'.Consistent := by
  obtain ⟨s1, hcreate, hprog⟩ := of_bind hprog
  have h1 : s1.Consistent := h.procCreate hp hcreate
  cases pgdir with
  | none =>
    obtain ⟨s2, hdestroy, hprog⟩ := of_bind hprog
    cases hprog
    exact h1.procDestroy hdestroy
  | some pd =>
    obtain ⟨o, ho, hprog⟩ := of_bind hprog
    obtain ⟨⟨pid, r⟩, -, hprog⟩ := of_bind hprog
    obtain ⟨⟨_, s2⟩, hadd, hprog⟩ := of_bind hprog
    cases hprog
    refine ProcSys.Consistent.addthread ?_ hadd
    exact Members.set_same h1 (liveProc_ok ho) rfl

/-- **Every call keeps the two in agreement.** -/
theorem ProcSys.Consistent.step {c : ProcCall P T} (h : s.Consistent) (hstep : ProcStep s c s') :
    s'.Consistent := by
  cases c with
  | init t p kpd => exact h.initProc hstep.1 hstep.2
  | create t p name => exact h.procCreate hstep.1 hstep.2
  | program t p name pgdir thread =>
    obtain ⟨hp, res, hprog⟩ := hstep
    exact h.procProgram hp hprog
  | destroy t p => exact h.procDestroy hstep
  | addthread p t =>
    obtain ⟨res, hadd⟩ := hstep
    exact h.addthread hadd
  | remthread t =>
    have hrem : s.remthread t = .ok s' := hstep
    cases hp : s.tproc t with
    | none =>
      rw [ProcSys.remthread, hp] at hrem
      exact nomatch hrem
    | some p =>
      obtain ⟨o, b, ho, hwf, helems, hok⟩ := h.remthread hp
      obtain rfl := Except.ok.inj (hok.symm.trans hrem)
      exact Members.remove h ho hp hwf helems

end

/-! ## Runs -/

/-- There are processes, none of which has a thread. -/
def NoThreads (s : ProcSys P T) : Prop :=
  (∀ p o, s.proc p = some o → o.threads = arrayCreate) ∧ ∀ t, s.tproc t = none

/-- A state, and the calls that can follow. -/
structure MembersSpec (s : ProcSys P T) : Prop where
  /-- A thread is in the array of its process once, and in no other. -/
  count : ∀ p o t, s.proc p = some o → o.threads.elems.count t = if s.tproc t = some p then 1 else 0
  /-- Its process exists. -/
  live : ∀ t p, s.tproc t = some p → ∃ o, s.proc p = some o
  /-- `proc_remthread` returns, and takes the thread out of the arrays; all others stay in order. -/
  remthread : ∀ t, s.tproc t ≠ none → ∃ s', s.remthread t = .ok s' ∧ s'.tproc t = none ∧
    ∀ p o, s.proc p = some o →
      ∃ o', s'.proc p = some o' ∧ o'.threads.elems = o.threads.elems.filter (· != t)

theorem ProcSys.Consistent.spec {s : ProcSys P T} (h : s.Consistent) : MembersSpec s := by
  refine ⟨Members.count h, Members.live h, fun t ht => ?_⟩
  obtain ⟨p, hp⟩ := Option.ne_none_iff_exists'.1 ht
  obtain ⟨o, b, ho, -, helems, hok⟩ := h.remthread hp
  refine ⟨_, hok, update_self .., fun q o' hq => ?_⟩
  by_cases hqp : q = p
  · subst hqp
    cases ho.symm.trans hq
    exact ⟨_, update_self .., helems⟩
  · refine ⟨o', (update_of_ne hqp ..).trans hq, ?_⟩
    -- the thread is not in the array of another process
    refine (List.filter_eq_self.2 fun u hu => ?_).symm
    have hne : u ≠ t := by
      rintro rfl
      exact hqp (Option.some.inj (((Members.mem_iff h hq).1 hu).symm.trans hp))
    simpa using hne

variable [Inhabited T]

/-- **Processes and threads agree** in every run of calls, from any processes without threads. -/
theorem membersRun {tr : List (ProcSys P T × ProcCall P T)} {s : ProcSys P T}
    (hrun : Run NoThreads ProcStep tr s) : MembersSpec s := by
  have hinv : s.Consistent := by
    refine Run.invariant (I := ProcSys.Consistent) (fun s hs => ?_)
      (fun _ _ _ hI hs => hI.step hs) hrun
    refine ⟨fun p o ho => hs.1 p o ho ▸ arrayCreate_wf, fun p o t ho => ?_, fun t p ht => ?_⟩
    · rw [hs.1 p o ho, hs.2 t, if_neg (fun he => nomatch he)]
      rfl
    · exact nomatch (hs.2 t).symm.trans ht
  exact hinv.spec

/-- The state after `proc_addthread`. -/
def addedTo (s : ProcSys P T) (p : P) (t : T) : ProcSys P T := ((s.addthread p t).okD (0, s)).2

theorem addedTo_step {s : ProcSys P T} {p : P} {t : T} (hok : (s.addthread p t).isOk = true) :
    ProcStep s (.addthread p t) (addedTo s p t) := by
  rw [ProcStep]
  exact ⟨_, Except.eq_ok_okD hok (0, s)⟩

/-- A process without threads. -/
def oneProc : ProcSys Unit Bool :=
  ⟨none, fun _ => some ⟨"[kproc]", arrayCreate, none, 1⟩, none, fun _ => none⟩

/-- Two threads have been added to it. -/
def twoMembers : ProcSys Unit Bool := addedTo (addedTo oneProc () true) () false

/-- The two threads are members. -/
theorem membersRun_two : (∃ tr, Run NoThreads ProcStep tr twoMembers) ∧
    twoMembers.tproc true = some () ∧ MembersSpec twoMembers := by
  have hinit : Run NoThreads ProcStep [] oneProc :=
    Run.init ⟨fun p o ho => by rw [← Option.some.inj ho], fun _ => rfl⟩
  have hone := Run.step hinit (addedTo_step (p := ()) (t := true) (by decide +kernel))
  have htwo := Run.step hone (addedTo_step (p := ()) (t := false) (by decide +kernel))
  exact ⟨⟨_, htwo⟩, by decide +kernel, membersRun htwo⟩

end JinxOS
