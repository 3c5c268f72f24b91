import JinxOS.Klib.Bitmap
import JinxOS.Synch.CvSignal
import JinxOS.Synch.Monitor

/-!
# The bitmap that threads share

`klib/bitmap_ts.c` as a monitor: any number of threads set and clear bits, and wait in
`bitmap_ts_isset_blocking` for a bit to be cleared.  What one expects is that a thread is asleep
only as long as its bit is set (`NotStranded`).

`bitmap_ts_unmark` clears a bit and does not signal; `bitmap_ts_mark`, which nobody waits for,
does.  So a thread that waits for the bit which is cleared stays asleep, or goes to sleep afterwards
if it had released the lock but was not on the channel yet.  It is the only way in which a thread is
stranded (`bitmapRun_notStranded_iff`): a thread has seen its bit set with the lock held, and no bit
is cleared as long as the lock is held by another thread, so from then on until it is woken the bit
is set, unless a `bitmap_ts_unmark` clears it.
-/

namespace JinxOS

open Function (update update_of_ne update_self)

/-! ## The code -/

/-- A call. -/
inductive BitmapTsCall
  /-- `bitmap_ts_mark`. -/
  | mark (index : Nat)
  /-- `bitmap_ts_unmark`. -/
  | unmark (index : Nat)
  /-- `bitmap_ts_isset_blocking`. -/
  | issetBlocking (index : Nat)

/-- The points of the calls. -/
inductive BitmapTsPoint
  /-- Before `bitmap_mark`. -/
  | mark (index : Nat)
  /-- Before `cv_signal`. -/
  | signal
  /-- Before `bitmap_unmark`. -/
  | unmark (index : Nat)
  /-- Before the test of the loop of `bitmap_ts_isset_blocking`. -/
  | test (index : Nat)
  /-- Before `cv_wait`. -/
  | wait (index : Nat)
  /-- Before `lock_release`. -/
  | leave
  deriving DecidableEq

/-- What a thread does at a point. -/
def bitmapTsAct : BitmapTsPoint → MonAct Unit Bitmap BitmapTsPoint
  | .mark index => .access fun b => do
    let b ← bitmapMark b index
    .ok (b, .signal)
  | .signal => .signal () .leave
  | .unmark index => .access fun b => do
    let b ← bitmapUnmark b index
    .ok (b, .leave)
  | .test index => .access fun b => do
    let set ← bitmapIsset b index
    .ok (b, if set then .wait index else .leave)
  | .wait index => .wait () (.test index)
  | .leave => .release

/-- `klib/bitmap_ts.c`. -/
def bitmapTs : Monitor Unit Bitmap BitmapTsPoint BitmapTsCall where
  start
    | .mark index => .mark index
    | .unmark index => .unmark index
    | .issetBlocking index => .test index
  act := bitmapTsAct

/-! ## The accesses -/

/-- What a thread knows at a point. -/
def BitmapTsPoint.Knows (p : BitmapTsPoint) (b : Bitmap) : Prop :=
  b.Wf ∧ ∀ i, p = .wait i → b.has i = true

variable {b b' : Bitmap} {p p' : BitmapTsPoint}

/-- **What an access can do.** -/
theorem bitmapTs_access {f : Bitmap → Except Fault (Bitmap × BitmapTsPoint)}
    (hact : (bitmapTsAct p).body = some f) (hf : f b = .ok (b', p')) :
    (∃ i, p = .mark i ∧ i < b.bits ∧ b' = b.mark i ∧ p' = .signal) ∨
      (∃ i, p = .unmark i ∧ i < b.bits ∧ b' = b.unmark i ∧ p' = .leave) ∨
      ∃ i, p = .test i ∧ b' = b ∧ p' = if b.has i then .wait i else .leave := by
  cases p with
  | mark i =>
    cases hact
    obtain ⟨b1, hb1, hf⟩ := of_bind hf
    cases hf
    obtain ⟨hi, hb⟩ := bitmapMark_inv hb1
    exact .inl ⟨i, rfl, hi, hb, rfl⟩
  | unmark i =>
    cases hact
    obtain ⟨b1, hb1, hf⟩ := of_bind hf
    cases hf
    obtain ⟨hi, hb⟩ := bitmapUnmark_inv hb1
    exact .inr (.inl ⟨i, rfl, hi, hb, rfl⟩)
  | test i =>
    cases hact
    obtain ⟨set, hset, hf⟩ := of_bind hf
    cases hf
    obtain rfl := bitmapIsset_inv hset
    exact .inr (.inr ⟨i, rfl, rfl, rfl⟩)
  | signal | wait i | leave => exact nomatch hact

theorem bitmapTs_spec :
    MonSpec bitmapTs Bitmap.Wf BitmapTsPoint.Knows fun _ _ => True where
  start k b hwf := by
    cases k <;> exact ⟨hwf, fun i hi => nomatch hi⟩
  access p p' f b b' hact hknow _ hf := by
    rcases bitmapTs_access hact hf with ⟨i, -, hi, rfl, rfl⟩ | ⟨i, -, hi, rfl, rfl⟩ |
      ⟨i, -, rfl, rfl⟩
    · exact ⟨hknow.1.mark hi, fun i hi => nomatch hi⟩
    · exact ⟨hknow.1.unmark hi, fun i hi => nomatch hi⟩
    · refine ⟨hknow.1, fun j hj => ?_⟩
      split at hj
      case isTrue hset =>
        obtain rfl := BitmapTsPoint.wait.inj hj
        exact hset
      case isFalse => exact nomatch hj
  wait p p' c hact := by
    cases p with
    | wait i =>
      obtain ⟨-, rfl⟩ := MonAct.wait.inj hact
      exact ⟨fun b hknow => hknow.1, fun b hwf => ⟨hwf, fun i hi => nomatch hi⟩⟩
    | _ => exact nomatch hact
  signal p p' c hact := by
    cases p with
    | signal =>
      obtain ⟨-, rfl⟩ := MonAct.signal.inj hact
      exact ⟨fun b hknow => hknow.1, fun b hwf => ⟨hwf, fun i hi => nomatch hi⟩⟩
    | _ => exact nomatch hact
  release _ _ _ hknow := hknow.1

/-! ## The threads that wait -/

section
variable {T : Type} [DecidableEq T] {s s' : MonSys T Unit Bitmap BitmapTsPoint} {t u : T}
  {cv cv' : CvSys T Unit} {pc pc' : T → Option BitmapTsPoint}

/-- A thread that is asleep in `bitmap_ts_isset_blocking` waits for a bit that is set. -/
def NotStranded (s : MonSys T Unit Bitmap BitmapTsPoint) : Prop :=
  ∀ t i, s.pc t = some (.test i) → t ∈ (s.cv.cv ()).wchan.asleep → s.obj.has i = true

/-- A step does not clear a bit that a thread waits for: one that has released the lock in `cv_wait`
and has not been woken. -/
def Unwaited (s : MonSys T Unit Bitmap BitmapTsPoint) (a : T × MonOp BitmapTsCall) : Prop :=
  a.2 = .act → ∀ i, s.pc a.1 = some (.unmark i) →
    ∀ t, s.pc t = some (.test i) → t ∉ s.cv.waiting ()

/-- The bits of the threads that wait are set. -/
structure WaitersSet (cv : CvSys T Unit) (b : Bitmap) (pc : T → Option BitmapTsPoint) : Prop where
  /-- So is the bit of the thread that is about to release the lock. -/
  entered : ∀ t i d, pc t = some (.test i) → cv.pc t = .entered (.wait () d) → b.has i = true
  waiting : ∀ t i, pc t = some (.test i) → t ∈ cv.waiting () → b.has i = true

/-- What a step in the functions of the lock and of the condition variable means for the other
threads. -/
theorem WaitersSet.of_self {a : CvOp Unit} (h : WaitersSet cv b pc) (hmove : CvMove cv u a cv')
    (hother : ∀ t, t ≠ u → pc' t = pc t)
    (hentered : ∀ i d, pc' u = some (.test i) → cv'.pc u = .entered (.wait () d) → b.has i = true)
    (hwaiting : ∀ i, pc' u = some (.test i) → u ∈ cv'.waiting () → b.has i = true) :
    WaitersSet cv' b pc' := by
  refine ⟨fun t i d ht hd => ?_, fun t i ht hin => ?_⟩
  · by_cases htu : t = u
    · subst htu
      exact hentered i d ht hd
    · rw [hother t htu] at ht
      rw [hmove.other htu] at hd
      exact h.entered t i d ht hd
  · by_cases htu : t = u
    · subst htu
      exact hwaiting i ht hin
    · rw [hother t htu] at ht
      rcases hmove.waiting_mem hin with hin | ⟨he, -⟩
      · exact h.waiting t i ht hin
      · exact absurd he htu

/-- What holds in a run. -/
structure WaitersInv (s : MonSys T Unit Bitmap BitmapTsPoint) : Prop where
  run : ∃ tr, CvRun tr s.cv
  safe : MonSafe Bitmap.Wf BitmapTsPoint.Knows s.cv s.obj s.pc
  set : WaitersSet s.cv s.obj s.pc

theorem WaitersInv.not_waiting (h : WaitersInv s) (hidle : s.cv.pc t = .idle) :
    t ∉ s.cv.waiting () := by
  intro hin
  obtain ⟨tr, hrun⟩ := h.run
  rcases hrun.waiting_pc hin with ⟨d, hd⟩ | ⟨-, d, hd⟩ <;> simp [hidle] at hd

theorem WaitersInv.wf (h : WaitersInv s) : s.obj.Wf := h.safe.holds id fun _ hknow => hknow.1

theorem WaitersInv.access (h : WaitersInv s) {f : Bitmap → Except Fault (Bitmap × BitmapTsPoint)}
    (hunwaited : Unwaited s (u, .act)) (hpc : s.pc u = some p)
    (hact : (bitmapTsAct p).body = some f) (hidle : s.cv.pc u = .idle)
    (hf : f s.obj = .ok (b', p')) :
    WaitersSet s.cv b' (update s.pc u (some p')) := by
  -- the thread that is about to release the lock holds it, so it is the one that takes the step
  have hother : ∀ t, (∃ d, s.cv.pc t = .entered (.wait () d)) ∨ t ∈ s.cv.waiting () → t ≠ u := by
    rintro t (⟨d, hd⟩ | hin) rfl
    · simp [hidle] at hd
    · exact h.not_waiting hidle hin
  have hexcluded : ∀ t i d, s.pc t = some (.test i) → s.cv.pc t ≠ .entered (.wait () d) := by
    intro t i d ht hd
    have hown := (h.safe.mon.owner t).2 ⟨by simp [ht], by rw [hd]; rfl⟩
    have hown' := h.safe.owner (by simp [hpc]) hidle
    exact hother t (.inl ⟨d, hd⟩) (Option.some.inj (hown.symm.trans hown'))
  have hkept : ∀ t i, s.pc t = some (.test i) → t ∈ s.cv.waiting () → b'.has i = true := by
    intro t i ht hin
    have hset := h.set.waiting t i ht hin
    rcases bitmapTs_access hact hf with ⟨j, -, hj, rfl, -⟩ | ⟨j, rfl, hj, rfl, -⟩ | ⟨j, -, rfl, -⟩
    · rw [Bitmap.has_mark (h.wf.lt hj), hset, Bool.true_or]
    · have hne : j ≠ i := by
        rintro rfl
        exact hunwaited rfl j hpc t ht hin
      rw [Bitmap.has_unmark (h.wf.lt hj), hset]
      simpa using hne
    · exact hset
  refine ⟨fun t i d ht hd => ?_, fun t i ht hin => ?_⟩
  · rw [update_of_ne (hother t (.inl ⟨d, hd⟩))] at ht
    exact absurd hd (hexcluded t i d ht)
  · rw [update_of_ne (hother t (.inr hin))] at ht
    exact hkept t i ht hin

/-- **A step keeps the invariant**, unless it clears a bit that a thread waits for. -/
theorem WaitersInv.step {a : T × MonOp BitmapTsCall} (h : WaitersInv s) (hunwaited : Unwaited s a)
    (hstep : MonStep bitmapTs s a s') : WaitersInv s' := by
  obtain ⟨u, op⟩ := a
  have hmove : MonMove bitmapTs s u op s' := hstep.move
  obtain ⟨tr, hrun⟩ := h.run
  refine ⟨?_, h.safe.step bitmapTs_spec hmove fun _ _ _ => trivial, ?_⟩
  · exact hmove.cvRun hrun
  · have hother : ∀ (q : Option BitmapTsPoint) t, t ≠ u → update s.pc u q t = s.pc t :=
      fun q t ht => update_of_ne ht ..
    cases hmove with
    | start k cv hpc hcv =>
      have hidle : s.cv.pc u = .idle := by
        cases hcv.move
        assumption
      refine h.set.of_self hcv.move (hother _) (fun i d _ hd => ?_) fun i _ hin => ?_
      · cases hcv.move with
        | acquire b lk hpc hlk => cases b <;> simp [CvSys.tried] at hd
      · rcases hcv.move.waiting_mem hin with hin | ⟨-, d, hd⟩
        · exact absurd hin (h.not_waiting hidle)
        · simp [hidle] at hd
    | go cv hcv =>
      refine h.set.of_self hcv.move (fun _ _ => rfl) (fun i d _ hd => ?_) fun i ht hin => ?_
      · exact absurd hd (hcv.move.go_not_entered _)
      · rcases hcv.move.waiting_mem hin with hin | ⟨-, d, hd⟩
        · exact h.set.waiting u i ht hin
        · exact h.set.entered u i d ht hd
    | access p p' f obj hpc hact hidle hf =>
      exact h.access hunwaited hpc (congrArg MonAct.body hact) hidle hf
    | nested p p' f obj lk hpc hact hidle hf hlk => cases p <;> cases hact
    | wait p p' c cv hpc hact hcv =>
      have hidle : s.cv.pc u = .idle := by
        cases hcv.move
        assumption
      have hset : ∀ i, update s.pc u (some p') u = some (.test i) → s.obj.has i = true := by
        intro i hi
        rw [update_self] at hi
        cases hi
        cases p with
        | wait j =>
          obtain ⟨-, hj⟩ := MonAct.wait.inj hact
          obtain rfl := BitmapTsPoint.test.inj hj
          exact (h.safe.holder u _ hpc hidle).2 j rfl
        | _ => cases hact
      exact h.set.of_self hcv.move (hother _) (fun i _ hi _ => hset i hi) fun i hi _ => hset i hi
    | signal p p' c cv hpc hact hcv =>
      have hleave : ∀ i, update s.pc u (some p') u ≠ some (.test i) := by
        intro i hi
        rw [update_self] at hi
        cases hi
        cases p with
        | signal => cases hact
        | _ => cases hact
      exact h.set.of_self hcv.move (hother _) (fun i _ hi _ => absurd hi (hleave i))
        fun i hi _ => absurd hi (hleave i)
    | release p cv hpc hact hcv =>
      exact h.set.of_self hcv.move (hother _) (fun i _ hi _ => by simp at hi)
        fun i hi _ => by simp at hi

theorem WaitersInv.init (hwf : b.Wf) :
    WaitersInv (.init b : MonSys T Unit Bitmap BitmapTsPoint) :=
  ⟨⟨[], Run.init rfl⟩, .init hwf, ⟨fun _ _ _ hi => (nomatch hi), fun _ _ hi => (nomatch hi)⟩⟩

theorem WaitersInv.notStranded (h : WaitersInv s) : NotStranded s := by
  obtain ⟨tr, hrun⟩ := h.run
  exact fun t i ht hin => h.set.waiting t i ht (hrun.waiting_of_asleep hin)

/-- **A thread is stranded** when the bit that it waits for is cleared: it is asleep already, or it
goes to sleep with its next step. -/
theorem WaitersInv.stranded {a : T × MonOp BitmapTsCall} (h : WaitersInv s)
    (hwaited : ¬ Unwaited s a)
    (hstep : MonStep bitmapTs s a s') :
    ¬ (NotStranded s' ∧ ∀ t s'', MonStep bitmapTs s' (t, .go) s'' → NotStranded s'') := by
  obtain ⟨u, op⟩ := a
  obtain ⟨rfl, i, hu, t, ht, hin⟩ : op = .act ∧ ∃ i, s.pc u = some (.unmark i) ∧
      ∃ t, s.pc t = some (.test i) ∧ t ∈ s.cv.waiting () := by
    simpa [Unwaited] using hwaited
  have htu : t ≠ u := by
    rintro rfl
    cases hu.symm.trans ht
  obtain ⟨tr, hrun⟩ := h.run
  rintro ⟨hnow, hnext⟩
  cases hstep.move with
  | access p p' f obj hp hact hidle hf =>
    cases hu.symm.trans hp
    have hbody : (bitmapTsAct (.unmark i)).body = some f := congrArg MonAct.body hact
    rcases bitmapTs_access hbody hf with ⟨j, hj, -⟩ | ⟨j, hj, hlt, rfl, -⟩ | ⟨j, hj, -⟩
    · cases hj
    · obtain rfl := BitmapTsPoint.unmark.inj hj
      have hclear : (s.obj.unmark i).has i = false := by
        rw [Bitmap.has_unmark (h.wf.lt hlt)]
        simp
      have hpc : update s.pc u (some p') t = some (.test i) := by
        rwa [update_of_ne htu]
      rcases hrun.waiting_pc hin with ⟨d, hd⟩ | ⟨hasleep, -⟩
      · -- the thread holds `cv_splock`, so it can go to sleep
        have hlock : (s.cv.cv ()).splock = some t :=
          (hrun.signalInv.exclusive () t).2 (by rw [hd]; rfl)
        have hgo : cvGo s.cv t = .ok (s.cv.slept t () d) := by
          rw [cvGo, hd]
          dsimp only
          rw [cvSleep, hlock, beq_self_eq_true, assert_true, ok_bind]
        have hset := hnext t _ ⟨by simp [MonOp.Allowed, CvOp.Allowed, hd],
          by rw [monStep, cvStep, hgo, ok_bind]⟩ t i hpc (by
            simp [CvSys.slept, CvSys.setCv, CvSys.goto])
        exact Bool.false_ne_true (hclear.symm.trans hset)
      · exact Bool.false_ne_true (hclear.symm.trans (hnow t i hpc hasleep))
    · cases hj
  | nested p p' f obj lk hp hact hidle hf hlk | wait p p' c cv hp hact hcv
  | signal p p' c cv hp hact hcv | release p cv hp hact hcv =>
    cases hu.symm.trans hp
    cases hact

/-- **No thread is stranded exactly as long as no bit is cleared that a thread waits for.** -/
theorem bitmapRun_notStranded_iff {nbits : Nat} (hlt : nbits < 2 ^ 32)
    (hb : bitmapCreate nbits = .ok (some b))
    {tr : List (MonSys T Unit Bitmap BitmapTsPoint × (T × MonOp BitmapTsCall))}
    (hrun : MonRun bitmapTs b tr s) (hunwaited : ∀ e ∈ tr, Unwaited e.1 e.2) :
    NotStranded s ∧ ∀ a s', MonStep bitmapTs s a s' →
      ((NotStranded s' ∧ ∀ t s'', MonStep bitmapTs s' (t, .go) s'' → NotStranded s'') ↔
        Unwaited s a) := by
  have hinv : WaitersInv s := by
    refine Run.invariant_of (C := Unwaited) ?_ (fun s a s' hI hC hs => hI.step hC hs) hrun hunwaited
    rintro _ rfl
    exact .init (bitmapCreate_wf hlt hb)
  refine ⟨hinv.notStranded, fun a s' hstep => ⟨fun hnot => ?_, fun hun => ?_⟩⟩
  · by_contra hwaited
    exact hinv.stranded hwaited hstep hnot
  · have hinv' := hinv.step hun hstep
    have hgo : ∀ t, Unwaited s' (t, .go) := by
      intro t hact
      exact nomatch hact
    exact ⟨hinv'.notStranded, fun t s'' hstep' => (hinv'.step (hgo t) hstep').notStranded⟩

end

/-- A thread marks bit 0, and another one goes to sleep until it is cleared. -/
def markThenWait : List (Bool × MonOp BitmapTsCall) :=
  [(true, .start (.mark 0)), (true, .act), (true, .act), (true, .go), (true, .go), (true, .go),
    (true, .go), (true, .act), (false, .start (.issetBlocking 0)), (false, .act), (false, .act),
    (false, .go), (false, .go)]

/-- The history of some steps on a bitmap of one bit. -/
def oneBitHistory (as : List (Bool × MonOp BitmapTsCall)) :
    List (MonSys Bool Unit Bitmap BitmapTsPoint × (Bool × MonOp BitmapTsCall)) ×
      MonSys Bool Unit Bitmap BitmapTsPoint :=
  Run.history (fun s a => monNext bitmapTs s a.1 a.2) (.init ⟨1, [0xFE#8]⟩) as

/-- A thread sleeps, and its bit is set. -/
theorem bitmapRun_notStranded_iff_one : MonRun bitmapTs ⟨1, [0xFE#8]⟩ (oneBitHistory markThenWait).1
    (oneBitHistory markThenWait).2 ∧
      ((oneBitHistory markThenWait).2.cv.cv ()).wchan.asleep = [false] ∧
      NotStranded (oneBitHistory markThenWait).2 := by
  have hcreate : bitmapCreate 1 = .ok (some ⟨1, [0xFE#8]⟩) := by rfl
  have hrun : MonRun bitmapTs ⟨1, [0xFE#8]⟩ (oneBitHistory markThenWait).1
      (oneBitHistory markThenWait).2 := monRun_of_history _ (by decide +kernel)
  have hnone : ∀ e ∈ (oneBitHistory markThenWait).1,
      e.1.cv.waiting () = [] ∨ e.1.pc e.2.1 = some (.test 0) := by decide +kernel
  refine ⟨hrun, by decide +kernel, (bitmapRun_notStranded_iff (by decide) hcreate hrun ?_).1⟩
  intro e he _ i hi t _
  rcases hnone e he with hempty | htest
  · rw [hempty]
    exact List.not_mem_nil
  · exact nomatch htest.symm.trans hi

/-- The bit is cleared while the thread sleeps, which goes on sleeping. -/
theorem not_notStranded_unmark : bitmapCreate 1 = .ok (some ⟨1, [0xFE#8]⟩) ∧
    ∃ as, MonRun bitmapTs ⟨1, [0xFE#8]⟩ (oneBitHistory as).1 (oneBitHistory as).2 ∧
      ¬ NotStranded (oneBitHistory as).2 := by
  refine ⟨rfl, markThenWait ++ [(true, .start (.unmark 0)), (true, .act)],
    monRun_of_history _ (by decide +kernel), fun hnot => ?_⟩
  exact absurd (hnot false 0 (by decide +kernel) (by decide +kernel)) (by decide +kernel)

end JinxOS
