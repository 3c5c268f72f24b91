import JinxOS.Proc.Proc

/-!
# Pids that leak

Every pid in use should belong to one live process.  `proc_create` and `proc_destroy` see to that,
as long as there is a pid left.  The other two do not: `init_proc` takes a pid and then sets the
field to 0, and `proc_program` takes a second pid and overwrites the first, so that the one taken
first is in use for ever. When no pid is left `pidreg_getpid` returns `EMPROC`, which is 6 and
becomes the pid of the process.

`Clean` says exactly which calls keep pids and processes together.
-/

namespace JinxOS

open Function (update update_of_ne update_self)

variable {P T : Type}

namespace PidView

/-- The pid is marked in the registrar. -/
def InUse (v : PidView P T) (q : Nat) : Prop := ∃ r, v.kpidreg = some r ∧ r.InUse q

/-- A live process other than `kproc` has the pid. -/
def Owns (v : PidView P T) (a : P) (q : Nat) : Prop := v.kproc ≠ some a ∧ v.pid a = some q

/-- There is a pid that is not in use. -/
def PidFree (v : PidView P T) : Prop := ∃ q, pidMin ≤ q ∧ q < npid ∧ ¬ v.InUse q

end PidView

/-- The pids in use are those of the live processes other than `kproc`, which are distinct. -/
def NoLeak (s : ProcSys P T) : Prop := Owned s.view.Owns s.view.InUse

/-- The calls that keep pids and processes together.  `init_proc` does if no pid is left for it to
lose, and `proc_program` if the pid that it loses is the only one that is left, and is the number of
the error that it gets when it asks for the second. -/
def Clean (s : ProcSys P T) : ProcCall P T → Prop
  | .init .. => s.kproc = none ∧ ¬ s.view.PidFree
  | .create .. => s.view.PidFree
  | .program _ _ _ none _ => s.view.PidFree
  | .program _ _ _ (some _) _ => ∀ q, pidMin ≤ q → q < npid → (s.view.InUse q ↔ q ≠ emproc)
  | _ => True

/-! ## The registrar -/

section
variable {r r' : PidRegistrar T} {t : T} {pid : Nat} {v : PidView P T}

theorem PidInv.available_iff (h : PidInv r) :
    r.Available ↔ ∃ q, pidMin ≤ q ∧ q < npid ∧ ¬ r.InUse q := by
  obtain ⟨lk, b, vs, c, rfl, hp⟩ := h
  constructor
  · intro ha
    obtain ⟨hlo, hlt, hclear, -⟩ := hp.nextPid ha
    exact ⟨_, hlo, hlt, fun hset => Bool.false_ne_true (hclear.symm.trans hset)⟩
  · rintro ⟨q, hlo, hlt, hq⟩
    by_cases hc : c < npid
    · exact .inl hc
    · have hmem := (hp.pool.cover q hlo (by omega)).resolve_left hq
      exact .inr (List.ne_nil_of_mem hmem)

theorem PidInv.pos (h : PidInv r) {q : Nat} (hq : r.InUse q) : pidMin ≤ q := by
  obtain ⟨lk, b, vs, c, rfl, hp⟩ := h
  exact (hp.pool.used_mem q hq).1

/-- What the calls keep of the registrar and of `kproc`. -/
structure PidBase (v : PidView P T) : Prop where
  reg : ∀ r, v.kpidreg = some r → PidInv r
  kproc : ∀ k, v.kproc = some k → v.pid k = some 0

/-- What `pidreg_getpid` does to the pids in use. -/
structure Got (v : PidView P T) (r : PidRegistrar T) (pid : Nat) : Prop where
  inv : PidInv r
  free : v.PidFree → pidMin ≤ pid ∧ pid < npid ∧ ¬ v.InUse pid ∧
    ∀ q, r.InUse q ↔ v.InUse q ∨ q = pid
  /-- If there is none, the answer is a pid that is in use. -/
  full : ¬ v.PidFree → pid = emproc ∧ v.InUse emproc ∧ ∀ q, r.InUse q ↔ v.InUse q

theorem PidView.inUse_iff (hr : v.kpidreg = some r) {q : Nat} : v.InUse q ↔ r.InUse q := by
  constructor
  · rintro ⟨r₁, hr1, hq⟩
    exact Option.some.inj (hr1.symm.trans hr) ▸ hq
  · exact fun hq => ⟨r, hr, hq⟩

variable [DecidableEq T]

theorem PidInv.got {k : Option P} {pids : P → Option Nat} (h : PidInv r)
    (hrun : pidregGetpid (some r) t = .ok (pid, r')) : Got ⟨some r, k, pids⟩ r' pid := by
  have huse : ∀ q, (⟨some r, k, pids⟩ : PidView P T).InUse q ↔ r.InUse q := fun q =>
    PidView.inUse_iff rfl
  have hfree : (⟨some r, k, pids⟩ : PidView P T).PidFree ↔ r.Available := by
    rw [h.available_iff, PidView.PidFree]
    simp only [huse]
  obtain ⟨hinv, havail, hnone⟩ := h.getpid hrun
  refine ⟨hinv, fun hf => ?_, fun hf => ?_⟩
  · simp only [huse]
    exact havail (hfree.1 hf)
  · obtain ⟨hpid, hsame⟩ := hnone fun ha => hf (hfree.2 ha)
    refine ⟨hpid, ?_, fun q => (hsame q).trans (huse q).symm⟩
    by_contra hclear
    exact hf ⟨emproc, by decide, by decide, hclear⟩

theorem PidBase.got (h : PidBase v) (hrun : pidregGetpid v.kpidreg t = .ok (pid, r')) :
    Got v r' pid := by
  obtain ⟨reg, kproc, pids⟩ := v
  cases reg with
  | some r => exact (h.reg r rfl).got hrun
  | none =>
    -- the registrar is created, and no pid of it is in use
    obtain ⟨b, hcreate, hp⟩ := pidregCreate_ok
    have hclear : ∀ q, ¬ (pidReg (lockCreate : Lock T) b [] pidMin).InUse q := fun q hq =>
      absurd (hp.pool.used_mem q hq) (by omega)
    have hrun' : pidregGetpid (some (pidReg (lockCreate : Lock T) b [] pidMin)) t =
        .ok (pid, r') := by
      rw [pidregGetpid, hcreate] at hrun
      exact hrun
    have hgot : Got (⟨some _, kproc, pids⟩ : PidView P T) r' pid :=
      PidInv.got ⟨_, _, _, _, rfl, hp⟩ hrun'
    have huse : ∀ q, (⟨some (pidReg (lockCreate : Lock T) b [] pidMin), kproc, pids⟩ :
        PidView P T).InUse q ↔ (⟨none, kproc, pids⟩ : PidView P T).InUse q := by
      intro q
      constructor
      · rintro ⟨r₁, hr1, hq⟩
        exact absurd (Option.some.inj hr1 ▸ hq) (hclear q)
      · rintro ⟨r₁, hr1, -⟩
        cases hr1
    refine ⟨hgot.inv, fun hf => ?_, fun hf => ?_⟩
    · simpa only [PidView.PidFree, huse] using hgot.free
        (by simpa only [PidView.PidFree, huse] using hf)
    · simpa only [PidView.PidFree, huse] using hgot.full
        (by simpa only [PidView.PidFree, huse] using hf)

theorem PidBase.returned (h : PidBase v) (hused : v.InUse pid)
    (hrun : pidregReturnpid v.kpidreg t pid = .ok r') :
    PidInv r' ∧ ∀ q, r'.InUse q ↔ v.InUse q ∧ q ≠ pid := by
  obtain ⟨r, hr, hused⟩ := hused
  rw [hr] at hrun
  obtain ⟨hinv, hq⟩ := (h.reg r hr).returnpid hused hrun
  exact ⟨hinv, fun q => (hq q).trans (and_congr_left' (PidView.inUse_iff hr).symm)⟩

end

/-! ## The calls -/

section
variable [DecidableEq P] {v : PidView P T} {r r₁ r₂ : PidRegistrar T} {p : P} {pid pid₁ pid₂ : Nat}

omit [DecidableEq P] in
theorem PidBase.kproc_ne (h : PidBase v) (hp : v.pid p = none) : v.kproc ≠ some p := by
  intro hk
  have := h.kproc p hk
  rw [hp] at this
  exact nomatch this

theorem PidBase.owns_update (h : PidBase v) (hp : v.pid p = none) (k : Option (PidRegistrar T))
    (a : P) (q : Nat) : (⟨k, v.kproc, update v.pid p (some pid)⟩ : PidView P T).Owns a q ↔
      v.Owns a q ∨ a = p ∧ q = pid := by
  rw [PidView.Owns, PidView.Owns]
  dsimp only
  by_cases ha : a = p
  · subst ha
    rw [update_self, hp, Option.some.injEq]
    have := h.kproc_ne hp
    simp [this, eq_comm]
  · rw [update_of_ne ha]
    simp [ha]

section
variable (h : PidBase v) (hn : Owned v.Owns v.InUse) (hp : v.pid p = none)
include h hn hp

theorem PidBase.owned_add (hfresh : ¬ v.InUse pid) (hu : ∀ q, r.InUse q ↔ v.InUse q ∨ q = pid) :
    Owned (⟨some r, v.kproc, update v.pid p (some pid)⟩ : PidView P T).Owns
      (⟨some r, v.kproc, update v.pid p (some pid)⟩ : PidView P T).InUse :=
  hn.add hfresh (h.owns_update hp _) fun q => (PidView.inUse_iff rfl).trans (hu q)

theorem PidBase.not_owned_dup (hused : v.InUse pid) :
    ¬ Owned (⟨some r, v.kproc, update v.pid p (some pid)⟩ :
      PidView P T).Owns (⟨some r, v.kproc, update v.pid p (some pid)⟩ : PidView P T).InUse := by
  intro hn'
  obtain ⟨a, ha⟩ := (hn.used_iff pid).1 hused
  have hap : a = p := hn'.unique a p pid ((h.owns_update hp _ a pid).2 (.inl ha))
    ((h.owns_update hp _ p pid).2 (.inr ⟨rfl, rfl⟩))
  rw [hap] at ha
  exact nomatch hp.symm.trans ha.2

theorem PidBase.create_iff (hget : Got v r pid) :
    Owned (⟨some r, v.kproc, update v.pid p (some pid)⟩ :
      PidView P T).Owns (⟨some r, v.kproc, update v.pid p (some pid)⟩ : PidView P T).InUse ↔
      v.PidFree := by
  constructor
  · intro hn'
    by_contra hf
    obtain ⟨rfl, hused, -⟩ := hget.full hf
    exact h.not_owned_dup hn hp hused hn'
  · intro hf
    obtain ⟨-, -, hfresh, hu⟩ := hget.free hf
    exact h.owned_add hn hp hfresh hu

/-- `proc_program` loses the first pid, unless it is the last one and has the number of the error.
-/
theorem PidBase.program_iff (hget1 : Got v r₁ pid₁)
    (hget2 : Got (⟨some r₁, v.kproc, v.pid⟩ : PidView P T) r₂ pid₂) :
    Owned (⟨some r₂, v.kproc, update v.pid p (some pid₂)⟩ : PidView P T).Owns
      (⟨some r₂, v.kproc, update v.pid p (some pid₂)⟩ : PidView P T).InUse ↔
      ∀ q, pidMin ≤ q → q < npid → (v.InUse q ↔ q ≠ emproc) := by
  have huse1 : ∀ q, (⟨some r₁, v.kproc, v.pid⟩ : PidView P T).InUse q ↔ r₁.InUse q := fun q =>
    PidView.inUse_iff rfl
  by_cases hf : v.PidFree
  · obtain ⟨hlo, hlt, hfresh, hu1⟩ := hget1.free hf
    have hin1 : r₁.InUse pid₁ := (hu1 pid₁).2 (.inr rfl)
    by_cases hf1 : (⟨some r₁, v.kproc, v.pid⟩ : PidView P T).PidFree
    · -- two pids are taken, and the first one has no owner
      obtain ⟨-, -, hfresh2, hu2⟩ := hget2.free hf1
      rw [huse1] at hfresh2
      have hne : pid₁ ≠ pid₂ := fun he => hfresh2 (he ▸ hin1)
      refine iff_of_false (fun hn' => ?_) fun hall => ?_
      · have hin2 : r₂.InUse pid₁ := (hu2 pid₁).2 (.inl ((huse1 pid₁).2 hin1))
        obtain ⟨a, ha⟩ := (hn'.used_iff pid₁).1 ((PidView.inUse_iff rfl).2 hin2)
        rcases (h.owns_update hp _ a pid₁).1 ha with ha | ⟨-, he⟩
        · exact hfresh ((hn.used_iff pid₁).2 ⟨a, ha⟩)
        · exact hne he
      · obtain ⟨q, hqlo, hqlt, hq⟩ := hf1
        rw [huse1, hu1, not_or] at hq
        have hpid1 : pid₁ = emproc := by
          by_contra hne
          exact hfresh ((hall pid₁ hlo hlt).2 hne)
        exact hq.1 ((hall q hqlo hqlt).2 (hpid1 ▸ hq.2))
    · obtain ⟨rfl, hused2, hu2⟩ := hget2.full hf1
      have hin2 : ∀ q, r₂.InUse q ↔ v.InUse q ∨ q = pid₁ := fun q =>
        (hu2 q).trans ((huse1 q).trans (hu1 q))
      constructor
      · intro hn' q hqlo hqlt
        have hpid1 : pid₁ = emproc := by
          obtain ⟨a, ha⟩ := (hn'.used_iff pid₁).1
            ((PidView.inUse_iff rfl).2 ((hin2 pid₁).2 (.inr rfl)))
          rcases (h.owns_update hp _ a pid₁).1 ha with ha | ⟨-, he⟩
          · exact absurd ((hn.used_iff pid₁).2 ⟨a, ha⟩) hfresh
          · exact he
        subst hpid1
        constructor
        · rintro hq rfl
          exact hfresh hq
        · intro hne
          by_contra hq
          refine hf1 ⟨q, hqlo, hqlt, ?_⟩
          rw [huse1, hu1]
          exact not_or.2 ⟨hq, hne⟩
      · intro hall
        have hpid1 : pid₁ = emproc := by
          by_contra hne
          exact hfresh ((hall pid₁ hlo hlt).2 hne)
        subst hpid1
        exact h.owned_add hn hp hfresh hin2
  · obtain ⟨rfl, hused, hu1⟩ := hget1.full hf
    refine iff_of_false ?_ fun hall => ?_
    · have hf1 : ¬ (⟨some r₁, v.kproc, v.pid⟩ : PidView P T).PidFree := by
        rintro ⟨q, hqlo, hqlt, hq⟩
        rw [huse1, hu1] at hq
        exact hf ⟨q, hqlo, hqlt, hq⟩
      obtain ⟨rfl, -, -⟩ := hget2.full hf1
      exact h.not_owned_dup hn hp hused
    · exact (hall emproc (by decide) (by decide)).1 hused rfl

theorem PidBase.init_iff (hget : Got v r pid) :
    Owned (⟨some r, some p, update v.pid p (some 0)⟩ : PidView P T).Owns
      (⟨some r, some p, update v.pid p (some 0)⟩ : PidView P T).InUse ↔
      v.kproc = none ∧ ¬ v.PidFree := by
  have howns : ∀ a q, (⟨some r, some p, update v.pid p (some 0)⟩ : PidView P T).Owns a q ↔
      v.pid a = some q := by
    intro a q
    rw [PidView.Owns]
    dsimp only
    by_cases ha : a = p
    · subst ha
      rw [hp]
      simp
    · rw [update_of_ne ha]
      simp [Ne.symm ha]
  constructor
  · intro hn'
    have hk : v.kproc = none := by
      -- a former `kproc` is a process like the others, and 0 is never in use
      by_contra hk
      obtain ⟨k, hk⟩ := Option.ne_none_iff_exists'.1 hk
      have hzero := (hn'.used_iff 0).2 ⟨k, (howns k 0).2 (h.kproc k hk)⟩
      exact absurd (hget.inv.pos ((PidView.inUse_iff rfl).1 hzero)) (by decide)
    refine ⟨hk, fun hf => ?_⟩
    obtain ⟨-, -, hfresh, hu⟩ := hget.free hf
    obtain ⟨a, ha⟩ := (hn'.used_iff pid).1 ((PidView.inUse_iff rfl).2 ((hu pid).2 (.inr rfl)))
    refine hfresh ((hn.used_iff pid).2 ⟨a, ?_, (howns a pid).1 ha⟩)
    rw [hk]
    exact nofun
  · rintro ⟨hk, hf⟩
    obtain ⟨-, -, hu⟩ := hget.full hf
    have hsame : ∀ a q, (⟨some r, some p, update v.pid p (some 0)⟩ : PidView P T).Owns a q ↔
        v.Owns a q := by
      intro a q
      rw [howns, PidView.Owns, hk]
      simp
    refine ⟨fun q => ?_, fun a b q ha hb => hn.unique a b q ((hsame a q).1 ha) ((hsame b q).1 hb)⟩
    rw [PidView.inUse_iff rfl, hu, hn.used_iff]
    exact exists_congr fun a => (hsame a q).symm

end

theorem PidView.owns_remove (v : PidView P T) (k : Option (PidRegistrar T)) (a : P) (q : Nat) :
    (⟨k, v.kproc, update v.pid p none⟩ : PidView P T).Owns a q ↔ v.Owns a q ∧ a ≠ p := by
  rw [PidView.Owns, PidView.Owns]
  dsimp only
  by_cases ha : a = p
  · subst ha
    rw [update_self]
    simp
  · rw [update_of_ne ha]
    simp [ha]

theorem PidBase.destroy (hn : Owned v.Owns v.InUse) (hk : v.kproc ≠ some p)
    (hp : v.pid p = some pid) (hu : ∀ q, r.InUse q ↔ v.InUse q ∧ q ≠ pid) :
    Owned (⟨some r, v.kproc, update v.pid p none⟩ : PidView P T).Owns
      (⟨some r, v.kproc, update v.pid p none⟩ : PidView P T).InUse := by
  have hone : ∀ q, v.Owns p q ↔ q = pid := by
    intro q
    rw [PidView.Owns, hp, Option.some.injEq]
    simp [hk, eq_comm]
  exact hn.remove hone (v.owns_remove _) fun q => (PidView.inUse_iff rfl).trans (hu q)

end

/-! ## Runs -/

section
variable {s s' : ProcSys P T} {t thread : T} {p : P} {name : String}

theorem ProcSys.view_pid_none (h : s.proc p = none) : s.view.pid p = none :=
  congrArg (Option.map Proc.pid) h

theorem PidBase.of_reg {v : PidView P T} {r : PidRegistrar T} (hr : v.kpidreg = some r)
    (hi : PidInv r) (hk : ∀ k, v.kproc = some k → v.pid k = some 0) : PidBase v :=
  ⟨fun _ hr' => Option.some.inj (hr.symm.trans hr') ▸ hi, hk⟩

theorem PidBase.empty : PidBase (ProcSys.empty : ProcSys P T).view :=
  ⟨fun _ hr => (nomatch hr), fun _ hk => (nomatch hk)⟩

theorem ProcSys.empty_inUse (q : Nat) : ¬ (ProcSys.empty : ProcSys P T).view.InUse q :=
  fun ⟨_, hr, _⟩ => nomatch hr

theorem NoLeak.empty : NoLeak (ProcSys.empty : ProcSys P T) :=
  ⟨fun q => iff_of_false (ProcSys.empty_inUse q) fun ⟨_, ha⟩ => (nomatch ha.2),
    fun _ _ _ ha => (nomatch ha.2)⟩

theorem ProcSys.empty_pidFree : (ProcSys.empty : ProcSys P T).view.PidFree :=
  ⟨pidMin, le_rfl, by decide, ProcSys.empty_inUse pidMin⟩

variable [DecidableEq P]

theorem PidBase.kproc_update {v : PidView P T} (h : PidBase v) (hk : v.kproc ≠ some p)
    (x : Option Nat) (k : P) (hk' : v.kproc = some k) : update v.pid p x k = some 0 := by
  have hne : k ≠ p := by
    rintro rfl
    exact hk hk'
  rw [update_of_ne hne]
  exact h.kproc k hk'

variable [DecidableEq T]

theorem PidBase.create_step (h : PidBase s.view) (hn : NoLeak s) (hp : s.proc p = none)
    (hrun : procCreate s t p name = .ok s') : PidBase s'.view ∧ (NoLeak s' ↔ s.view.PidFree) := by
  have hp := ProcSys.view_pid_none hp
  obtain ⟨pid, r, hget, hview⟩ := procCreate_view hrun
  have hgot := h.got hget
  rw [NoLeak, hview]
  exact ⟨.of_reg rfl hgot.inv (h.kproc_update (h.kproc_ne hp) _), h.create_iff hn hp hgot⟩

theorem PidBase.destroy_step (h : PidBase s.view) (hn : NoLeak s)
    (hrun : procDestroy s t p = .ok s') : PidBase s'.view ∧ NoLeak s' := by
  obtain ⟨hk, pid, r, hp, hret, hview⟩ := procDestroy_view hrun
  have hused : s.view.InUse pid := (hn.used_iff pid).2 ⟨p, hk, hp⟩
  obtain ⟨hinv, hu⟩ := h.returned hused hret
  rw [NoLeak, hview]
  exact ⟨.of_reg rfl hinv (h.kproc_update hk _), PidBase.destroy hn hk hp hu⟩

theorem PidBase.program_none_step [Inhabited T] (h : PidBase s.view) (hn : NoLeak s)
    (hp : s.proc p = none) {res : Bool}
    (hrun : procProgram s t p name none thread = .ok (res, s')) :
    PidBase s'.view ∧ (NoLeak s' ↔ s.view.PidFree) := by
  obtain ⟨s1, hcreate, hdestroy⟩ := procProgram_none_view hrun
  obtain ⟨hb1, hiff⟩ := h.create_step hn hp hcreate
  by_cases hf : s.view.PidFree
  · obtain ⟨hb', hn'⟩ := hb1.destroy_step (hiff.2 hf) hdestroy
    exact ⟨hb', iff_of_true hn' hf⟩
  · -- the pid that is given back is that of another process
    have hp := ProcSys.view_pid_none hp
    obtain ⟨pid, r, hget, hview⟩ := procCreate_view hcreate
    obtain ⟨rfl, hused, hu⟩ := (h.got hget).full hf
    obtain ⟨hk, pid', r', hp', hret, hview'⟩ := procDestroy_view hdestroy
    have hpid' : pid' = emproc := by
      rw [hview] at hp'
      dsimp only at hp'
      rw [update_self] at hp'
      exact (Option.some.inj hp').symm
    subst hpid'
    have hused1 : s1.view.InUse emproc := by
      rw [hview]
      exact (PidView.inUse_iff rfl).2 ((hu emproc).2 hused)
    obtain ⟨hinv, hu'⟩ := hb1.returned hused1 hret
    refine ⟨?_, iff_of_false (fun hn' => ?_) hf⟩
    · rw [hview']
      exact .of_reg rfl hinv (hb1.kproc_update hk _)
    · obtain ⟨a, ha⟩ := (hn.used_iff emproc).1 hused
      have hap : a ≠ p := by
        rintro rfl
        exact nomatch hp.symm.trans ha.2
      have hown : s'.view.Owns a emproc := by
        rw [hview']
        refine (s1.view.owns_remove _ a emproc).2 ⟨?_, hap⟩
        rw [hview]
        exact (h.owns_update hp _ a emproc).2 (.inl ha)
      have hin := (hn'.used_iff emproc).2 ⟨a, hown⟩
      rw [hview', PidView.inUse_iff rfl, hu'] at hin
      exact hin.2 rfl

/-- **A step keeps pids and processes together if it is clean, and only then.** -/
theorem PidBase.step [Inhabited T] (h : PidBase s.view) (hn : NoLeak s) {a : ProcCall P T}
    (hstep : ProcStep s a s') : PidBase s'.view ∧ (NoLeak s' ↔ Clean s a) := by
  match a with
  | .init t p kpd =>
    obtain ⟨hp, hrun⟩ := hstep
    have hp := ProcSys.view_pid_none hp
    obtain ⟨pid, r, hget, hview⟩ := initProc_view hrun
    have hgot := h.got hget
    rw [NoLeak, hview]
    refine ⟨.of_reg rfl hgot.inv fun k hk => ?_, h.init_iff hn hp hgot⟩
    rw [← Option.some.inj hk]
    exact update_self ..
  | .create t p name => exact h.create_step hn hstep.1 hstep.2
  | .program t p name none thread =>
    obtain ⟨hp, res, hrun⟩ := hstep
    exact h.program_none_step hn hp hrun
  | .program t p name (some pd) thread =>
    obtain ⟨hp, res, hrun⟩ := hstep
    have hp := ProcSys.view_pid_none hp
    obtain ⟨pid₁, r₁, pid₂, r₂, hget1, hget2, hview⟩ := procProgram_some_view hrun
    have hgot1 := h.got hget1
    have hgot2 : Got (⟨some r₁, s.kproc, s.view.pid⟩ : PidView P T) r₂ pid₂ := hgot1.inv.got hget2
    rw [NoLeak, hview]
    exact ⟨.of_reg rfl hgot2.inv (h.kproc_update (h.kproc_ne hp) _),
      h.program_iff hn hp hgot1 hgot2⟩
  | .destroy t p =>
    obtain ⟨hb', hn'⟩ := h.destroy_step hn hstep
    exact ⟨hb', iff_of_true hn' trivial⟩
  | .addthread p t =>
    obtain ⟨res, hrun⟩ := hstep
    rw [NoLeak, addthread_view hrun]
    exact ⟨h, iff_of_true hn trivial⟩
  | .remthread t =>
    rw [NoLeak, remthread_view hstep]
    exact ⟨h, iff_of_true hn trivial⟩

/-- **No pid leaks in a run of clean calls**, and the first call that is not clean makes one leak.
-/
theorem procsRun_noLeak_iff [Inhabited T] {tr : List (ProcSys P T × ProcCall P T)} {s : ProcSys P T}
    (hrun : ProcsRun tr s) (hclean : ∀ e ∈ tr, Clean e.1 e.2) :
    NoLeak s ∧ ∀ a s', ProcStep s a s' → (NoLeak s' ↔ Clean s a) := by
  have hinv : PidBase s.view ∧ NoLeak s := by
    refine Run.invariant_of (I := fun s => PidBase s.view ∧ NoLeak s) (C := Clean) (fun s hs => ?_)
      (fun s a s' hi hc hstep => ?_) hrun hclean
    · subst hs
      exact ⟨.empty, .empty⟩
    · obtain ⟨hb, hiff⟩ := hi.1.step hi.2 hstep
      exact ⟨hb, hiff.2 hc⟩
  exact ⟨hinv.2, fun a s' hstep => (hinv.1.step hinv.2 hstep).2⟩

end

/-- One process is created. -/
theorem procsRun_noLeak_iff_one : ∃ (tr : List (ProcSys Unit Unit × ProcCall Unit Unit))
    (s : ProcSys Unit Unit), ProcsRun tr s ∧ (∀ e ∈ tr, Clean e.1 e.2) ∧ (s.proc ()).isSome ∧
    NoLeak s := by
  have hok : (procCreate (.empty : ProcSys Unit Unit) () () "proc").isOk = true := by decide +kernel
  have hcreate := Except.eq_ok_okD hok .empty
  generalize (procCreate (.empty : ProcSys Unit Unit) () () "proc").okD .empty = s at hcreate
  have hrun : ProcsRun [(.empty, ProcCall.create () () "proc")] s :=
    .step (.init rfl) ⟨rfl, hcreate⟩
  have hclean : ∀ e ∈ [((.empty : ProcSys Unit Unit), ProcCall.create () () "proc")],
      Clean e.1 e.2 := by
    intro e he
    rw [List.mem_singleton.1 he]
    exact ProcSys.empty_pidFree
  obtain ⟨pid, r, -, hview⟩ := procCreate_view hcreate
  have hpid : (s.proc ()).map Proc.pid = some pid := by
    change s.view.pid () = some pid
    rw [hview]
    rfl
  refine ⟨_, s, hrun, hclean, ?_, (procsRun_noLeak_iff hrun hclean).1⟩
  rw [← Option.isSome_map (f := Proc.pid), hpid]
  rfl

/-- `init_proc` makes a pid leak. -/
theorem not_noLeak_init :
    ∃ (tr : List (ProcSys Unit Unit × ProcCall Unit Unit)) (s : ProcSys Unit Unit),
    ProcsRun tr s ∧ ¬ NoLeak s := by
  have hok : (initProc (.empty : ProcSys Unit Unit) () () 0).isOk = true := by decide +kernel
  have hstep : ProcStep .empty (.init () () 0)
      ((initProc (.empty : ProcSys Unit Unit) () () 0).okD .empty) :=
    ⟨rfl, Except.eq_ok_okD hok .empty⟩
  refine ⟨_, _, .step (.init rfl) hstep, fun hn => ?_⟩
  exact ((PidBase.empty.step .empty hstep).2.1 hn).2 ProcSys.empty_pidFree

end JinxOS
