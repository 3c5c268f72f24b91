import JinxOS.Klib.Queue
import JinxOS.Mem.Runs
import JinxOS.Synch.Monitor

/-!
# The page registrar

`page_get` and `page_return` of `mem/pmm.c`, as a monitor: any number of threads get pages and
return them.  A page that was returned is handed out again, first come first served; if there is
none, `kpalloc` makes one, up to 2048 of them.

The registrar is made by the first `page_get`, which the boot thread calls when there is no other
thread: every other thread has a stack that `page_get` has handed out.  So here it is there from the
start.

A history lists the pages that are handed out.  A page is one of them from the point where
`page_get` takes it off the queue or counts it, up to the point where `page_return` puts it on the
queue, so `page_count` can be compared with it in every state (`PageSpec`).  Between the steps of
the calls any memory can be written, but for the page that a `page_get` has cleared and not returned
yet.
-/

namespace JinxOS

/-! ## The code -/

/-- `NPAGES`. -/
def npagesMax : Int := 2048

/-- `struct page_registrar`, but for its lock, with the memory it is about. -/
structure PageReg where
  reuse : Queue Nat
  count : Int
  /-- The kernel's memory. -/
  k : KMem
  /-- History: the pages that are handed out. -/
  out : List Nat

/-- `pagereg_create`. -/
def pageregCreate (k : KMem) : PageReg := ⟨queueCreate, 0, k, []⟩

/-- A call. -/
inductive PageCall
  /-- `page_get`. -/
  | get
  /-- `page_return`. -/
  | ret (addr : Nat)

/-- The points of the calls. -/
inductive PagePoint
  /-- Before the test of `page_available`. -/
  | available
  /-- Before the test of `page_reuse`. -/
  | choose
  /-- Before `queue_front`. -/
  | front
  /-- Before `queue_pop`. -/
  | pop (addr : Nat)
  /-- Before `memset`. -/
  | clear (addr : Nat)
  /-- Before `kpalloc`. -/
  | kpalloc
  /-- Before `page_count++`. -/
  | count (addr : Nat)
  /-- Before the `lock_release` of `page_get`. -/
  | leave (addr : Nat)
  /-- Before `queue_push`. -/
  | push (addr : Nat)
  /-- Before the `lock_release` of `page_return`. -/
  | left
  deriving DecidableEq

/-- `page_available`, under its lock, and the test of `page_get`. -/
def pageAvailable (r : PageReg) : Except Fault (PageReg × PagePoint) := do
  let empty ← queueIsempty r.reuse
  if r.count < npagesMax || !empty then .ok (r, .choose)
  else .error (.panic "OOM: no more pages available")

/-- The test of `page_reuse`. -/
def pageChoose (r : PageReg) : Except Fault (PageReg × PagePoint) := do
  let empty ← queueIsempty r.reuse
  .ok (r, if empty then .kpalloc else .front)

/-- `queue_front`. -/
def pageFront (r : PageReg) : Except Fault (PageReg × PagePoint) := do
  let addr ← queueFront r.reuse
  .ok (r, .pop (addr.getD 0))

/-- `queue_pop`. -/
def pagePop (addr : Nat) (r : PageReg) : Except Fault (PageReg × PagePoint) := do
  let reuse ← queuePop r.reuse
  .ok ({ r with reuse := reuse, out := addr :: r.out }, .clear addr)

/-- `memset(page_addr, 0, STACK_SIZE)`. -/
def pageClear (addr : Nat) (r : PageReg) : Except Fault (PageReg × PagePoint) :=
  .ok ({ r with k := { r.k with mem := r.k.mem.memset addr 0 pgSize } }, .leave addr)

/-- `kpalloc`. -/
def pageKpalloc (r : PageReg) : Except Fault (PageReg × PagePoint) := do
  let (addr, k) ← kpalloc r.k
  .ok ({ r with k := k }, .count addr)

/-- `page_count++`. -/
def pageCount (addr : Nat) (r : PageReg) : Except Fault (PageReg × PagePoint) :=
  .ok ({ r with count := toInt (r.count + 1), out := addr :: r.out }, .leave addr)

/-- `queue_push`. -/
def pagePush (addr : Nat) (r : PageReg) : Except Fault (PageReg × PagePoint) := do
  let reuse ← queuePush r.reuse addr
  .ok ({ r with reuse := reuse, out := r.out.erase addr }, .left)

/-- What a thread does at a point. -/
def pageAct : PagePoint → MonAct Unit PageReg PagePoint
  | .available => .nested pageAvailable
  | .choose => .access pageChoose
  | .front => .access pageFront
  | .pop addr => .access (pagePop addr)
  | .clear addr => .access (pageClear addr)
  | .kpalloc => .access pageKpalloc
  | .count addr => .access (pageCount addr)
  | .leave _ => .release
  | .push addr => .access (pagePush addr)
  | .left => .release

/-- `page_get` and `page_return`. -/
def pagereg : Monitor Unit PageReg PagePoint PageCall where
  start
    | .get => .available
    | .ret addr => .push addr
  act := pageAct

/-- What happens. -/
inductive PageOp
  /-- A step of a call. -/
  | call (op : MonOp PageCall)
  /-- A byte of memory is written. -/
  | write (y : Nat) (v : UInt8)

section
variable {T : Type} [DecidableEq T]

/-- The byte is not in a page that a `page_get` has cleared and not returned. -/
def Unclaimed (s : MonSys T Unit PageReg PagePoint) (y : Nat) : Prop :=
  ∀ t addr, s.pc t = some (.count addr) ∨ s.pc t = some (.leave addr) →
    ¬ (addr ≤ y ∧ y < addr + pgSize)

/-- A byte has been written. -/
def PageReg.write (r : PageReg) (y : Nat) (v : UInt8) : PageReg :=
  { r with k := { r.k with mem := Function.update r.k.mem y v } }

/-- One step that returns. -/
def PageStep (s : MonSys T Unit PageReg PagePoint) (a : T × PageOp)
    (s' : MonSys T Unit PageReg PagePoint) : Prop :=
  match a.2 with
  | .call op => MonStep pagereg s (a.1, op) s'
  | .write y v => Unclaimed s y ∧ s' = { s with obj := s.obj.write y v }

/-- A run on a new registrar. -/
def PageRun (k : KMem) (tr : List (MonSys T Unit PageReg PagePoint × (T × PageOp)))
    (s : MonSys T Unit PageReg PagePoint) : Prop :=
  Run (fun s => s = .init (pageregCreate k)) PageStep tr s

/-- A page that is put on the queue is handed out at that point. -/
def PagePoint.Returned (p : PagePoint) (r : PageReg) : Prop := ∀ addr, p = .push addr → addr ∈ r.out

/-- `page_return` is only called on a page that is handed out. -/
def ReturnsOut (s : MonSys T Unit PageReg PagePoint) (a : T × PageOp) : Prop :=
  ∀ op, a.2 = .call op → MonCond PagePoint.Returned s (a.1, op)

end

/-! ## The pages -/

/-- The bytes of the page are zero. -/
def ZeroPage (m : ByteMem) (addr : Nat) : Prop := ∀ y, addr ≤ y → y < addr + pgSize → m y = 0

/-- The pages that there are: below `top`, one after the other, down to `low`. -/
structure Ledger (top low : Nat) (r : PageReg) (vs : List Nat) : Prop where
  reuse : r.reuse = .of vs
  count : r.count = (r.out.length + vs.length : Nat)
  le : r.out.length + vs.length ≤ 2048
  nodup : (r.out ++ vs).Nodup
  page : ∀ p ∈ r.out ++ vs, low ≤ p ∧ p + 4096 ≤ top
  low_eq : low + 4096 * (r.out.length + vs.length) = top
  lock : r.k.memLock = spinlockInit

/-- Where the next page is taken from, at a point. -/
def PagePoint.low (r : PageReg) : PagePoint → Nat
  | .count _ => r.k.kbrkMax + 4096
  | _ => r.k.kbrkMax

/-- What a thread knows at a point. -/
def PagePoint.Knows (r : PageReg) (vs : List Nat) : PagePoint → Prop
  | .choose => r.out.length + vs.length < 2048 ∨ vs ≠ []
  | .kpalloc => r.out.length + vs.length < 2048 ∧ vs = []
  | .front => vs ≠ []
  | .pop addr => vs.head? = some addr
  | .clear addr => addr ∈ r.out
  | .count addr => r.out.length + vs.length < 2048 ∧ addr = r.k.kbrkMax ∧ ZeroPage r.k.mem addr
  | .leave addr => addr ∈ r.out ∧ ZeroPage r.k.mem addr
  | _ => True

section
variable {top low : Nat} {r r' : PageReg} {vs : List Nat} {p p' : PagePoint} {addr : Nat}

theorem Ledger.length_lt (h : Ledger top low r vs) : vs.length + 1 < 2 ^ 32 := by
  have hle := h.le
  omega

theorem Ledger.pop (h : Ledger top low r (addr :: vs)) :
    queuePop r.reuse = .ok (.of vs) ∧
      Ledger top low { r with reuse := .of vs, out := addr :: r.out } vs := by
  have hlen : (addr :: r.out).length + vs.length = r.out.length + (addr :: vs).length := by
    simp only [List.length_cons]
    omega
  have hperm : (r.out ++ addr :: vs).Perm (addr :: r.out ++ vs) := List.perm_middle
  refine ⟨?_, rfl, ?_, ?_, hperm.nodup_iff.1 h.nodup, fun q hq => ?_, ?_, h.lock⟩
  · rw [h.reuse, queuePop_of (Nat.lt_of_succ_lt h.length_lt)]
  · rw [hlen]
    exact h.count
  · rw [hlen]
    exact h.le
  · exact h.page q (hperm.mem_iff.2 hq)
  · rw [hlen]
    exact h.low_eq

theorem Ledger.push (h : Ledger top low r vs) (hout : addr ∈ r.out) :
    queuePush r.reuse addr = .ok (.of (vs ++ [addr])) ∧
      Ledger top low { r with reuse := .of (vs ++ [addr]), out := r.out.erase addr }
        (vs ++ [addr]) := by
  have hperm : (r.out ++ vs).Perm (r.out.erase addr ++ (vs ++ [addr])) := by
    have hcons : (r.out ++ vs).Perm (addr :: r.out.erase addr ++ vs) :=
      (List.perm_cons_erase hout).append_right vs
    rw [← List.append_assoc]
    exact hcons.trans (List.perm_append_singleton addr (r.out.erase addr ++ vs)).symm
  have hlen : (r.out.erase addr).length + (vs ++ [addr]).length = r.out.length + vs.length := by
    have := hperm.length_eq
    rw [List.length_append, List.length_append] at this
    exact this.symm
  refine ⟨?_, rfl, ?_, ?_, hperm.nodup_iff.1 h.nodup, fun q hq => ?_, ?_, h.lock⟩
  · rw [h.reuse, queuePush_of h.length_lt]
  · rw [hlen]
    exact h.count
  · rw [hlen]
    exact h.le
  · exact h.page q (hperm.mem_iff.2 hq)
  · rw [hlen]
    exact h.low_eq

theorem Ledger.counted (h : Ledger top (addr + 4096) r vs) (hlt : r.out.length + vs.length < 2048) :
    Ledger top addr { r with count := toInt (r.count + 1), out := addr :: r.out } vs := by
  have hnot : addr ∉ r.out ++ vs := fun hin => by
    have := (h.page addr hin).1
    omega
  have hlen : (addr :: r.out).length + vs.length = r.out.length + vs.length + 1 := by
    rw [List.length_cons]
    omega
  have hlow := h.low_eq
  refine ⟨h.reuse, ?_, ?_, List.nodup_cons.2 ⟨hnot, h.nodup⟩, fun q hq => ?_, ?_, h.lock⟩
  · rw [hlen, h.count, toInt_eq]
    rfl
  · rw [hlen]
    exact hlt
  · rcases List.mem_cons.1 hq with rfl | hq
    · omega
    · have := h.page q hq
      omega
  · rw [hlen]
    omega

theorem Ledger.setMem (h : Ledger top low r vs) {k : KMem} (hlock : k.memLock = spinlockInit) :
    Ledger top low { r with k := k } vs :=
  ⟨h.reuse, h.count, h.le, h.nodup, h.page, h.low_eq, hlock⟩

/-- **`kpalloc`** makes the next page. -/
theorem Ledger.kpalloc (h : Ledger top r.k.kbrkMax r vs) (hlt : r.out.length + vs.length < 2048)
    (htop : top % 4096 = 0 ∧ 8388608 ≤ top ∧ top < 2 ^ 32) :
    ∃ k, kpalloc r.k = .ok (k.kbrkMax, k) ∧ ZeroPage k.mem k.kbrkMax ∧
      Ledger top (k.kbrkMax + 4096) { r with k := k } vs := by
  have hlow := h.low_eq
  obtain ⟨k, hk, -, -, hmax, hlock, hmem⟩ := kpalloc_spec h.lock (by omega) (by omega) (by omega)
  refine ⟨k, hmax ▸ hk, fun y hlo hhi => ?_, ?_⟩
  · rw [hmem, if_pos]
    rw [pgSize] at hhi
    omega
  · have hsame : k.kbrkMax + 4096 = r.k.kbrkMax := by omega
    rw [hsame]
    exact h.setMem hlock

theorem pageClear_eq (h : addr + 4096 ≤ 2 ^ 32) : ∃ m, ZeroPage m addr ∧
    pageClear addr r = .ok ({ r with k := { r.k with mem := m } }, .leave addr) := by
  rw [pageClear]
  refine ⟨_, fun y hlo hhi => ?_, rfl⟩
  rw [ByteMem.memset_apply 0 pgSize _ _ _ h, if_pos ⟨hlo, hhi⟩]

/-- What is known of the registrar when its lock is free. -/
def PagesGood (top : Nat) (r : PageReg) : Prop := ∃ vs, Ledger top r.k.kbrkMax r vs

/-- What the thread at a point knows that holds the lock. -/
def PagesKnown (top : Nat) (p : PagePoint) (r : PageReg) : Prop :=
  ∃ vs, Ledger top (p.low r) r vs ∧ p.Knows r vs

/-- **An access keeps what is known**, if it does not put a page on the queue that is not handed
out. -/
theorem pagereg_access {f : PageReg → Except Fault (PageReg × PagePoint)}
    (htop : top % 4096 = 0 ∧ 8388608 ≤ top ∧ top < 2 ^ 32) (hact : (pageAct p).body = some f)
    (hledger : Ledger top (p.low r) r vs) (hknows : p.Knows r vs) (hreturned : p.Returned r)
    (hf : f r = .ok (r', p')) : PagesKnown top p' r' := by
  cases p with
  | available =>
    cases hact
    rw [pageAvailable, hledger.reuse, queueIsempty_of, ok_bind] at hf
    split at hf
    case isTrue hav =>
      cases hf
      refine ⟨vs, hledger, ?_⟩
      rw [hledger.count, npagesMax] at hav
      cases vs with
      | nil =>
        left
        simp only [List.isEmpty_nil, Bool.not_true, Bool.or_false, decide_eq_true_eq] at hav
        exact_mod_cast hav
      | cons q qs => exact .inr (List.cons_ne_nil q qs)
    case isFalse => exact nomatch hf
  | choose =>
    cases hact
    rw [pageChoose, hledger.reuse, queueIsempty_of, ok_bind] at hf
    cases hf
    cases vs with
    | nil => exact ⟨[], hledger, hknows.resolve_right fun hne => hne rfl, rfl⟩
    | cons q qs => exact ⟨q :: qs, hledger, List.cons_ne_nil q qs⟩
  | front =>
    cases hact
    rw [pageFront, hledger.reuse, queueFront_of, ok_bind] at hf
    cases hf
    cases vs with
    | nil => exact absurd rfl hknows
    | cons q qs => exact ⟨q :: qs, hledger, rfl⟩
  | pop addr =>
    obtain ⟨rest, rfl⟩ : ∃ rest, vs = addr :: rest := List.head?_eq_some_iff.1 hknows
    cases hact
    obtain ⟨hpop, hledger'⟩ := hledger.pop
    rw [pagePop, hpop, ok_bind] at hf
    cases hf
    exact ⟨rest, hledger', List.mem_cons_self⟩
  | clear addr =>
    cases hact
    have hpage := hledger.page addr (List.mem_append_left vs hknows)
    obtain ⟨m, hzero, hclear⟩ := pageClear_eq (show addr + 4096 ≤ 2 ^ 32 by omega)
    rw [hclear] at hf
    cases hf
    exact ⟨vs, hledger.setMem hledger.lock, hknows, hzero⟩
  | kpalloc =>
    cases hact
    obtain ⟨k, hk, hzero, hledger'⟩ := Ledger.kpalloc hledger hknows.1 htop
    rw [pageKpalloc, hk, ok_bind] at hf
    cases hf
    exact ⟨vs, hledger', hknows.1, rfl, hzero⟩
  | count addr =>
    obtain ⟨hlt, rfl, hzero⟩ := hknows
    cases hact
    cases hf
    exact ⟨vs, Ledger.counted hledger hlt, List.mem_cons_self, hzero⟩
  | push addr =>
    cases hact
    obtain ⟨hpush, hledger'⟩ := hledger.push (hreturned addr rfl)
    rw [pagePush, hpush, ok_bind] at hf
    cases hf
    exact ⟨vs ++ [addr], hledger', trivial⟩
  | leave addr => exact nomatch hact
  | left => exact nomatch hact

theorem pagereg_spec (htop : top % 4096 = 0 ∧ 8388608 ≤ top ∧ top < 2 ^ 32) :
    MonSpec pagereg (PagesGood top) (PagesKnown top) PagePoint.Returned where
  start k r hgood := by
    obtain ⟨vs, hledger⟩ := hgood
    cases k <;> exact ⟨vs, hledger, trivial⟩
  access p p' f r r' hact hknow hreturned hf := by
    obtain ⟨vs, hledger, hknows⟩ := hknow
    exact pagereg_access htop hact hledger hknows hreturned hf
  wait p p' c hact := by
    cases p <;> exact nomatch hact
  signal p p' c hact := by
    cases p <;> exact nomatch hact
  release p r hact hknow := by
    obtain ⟨vs, hledger, -⟩ := hknow
    cases p with
    | count addr => exact nomatch hact
    | _ => exact ⟨vs, hledger⟩

end

/-! ## Every run -/

/-- What the registrar promises. -/
structure PageSpec {T : Type} (s : MonSys T Unit PageReg PagePoint) : Prop where
  /-- The pages handed out and the pages on the queue are all different. -/
  distinct : (s.obj.out ++ s.obj.reuse.vals.vals).Nodup
  /-- They have been counted. -/
  count : s.obj.count = s.obj.out.length + s.obj.reuse.vals.vals.length
  /-- There is a bound. -/
  le : s.obj.count ≤ npagesMax
  /-- The page that a `page_get` is about to return is an entry of the pages handed out, so it
  differs from all others, and is all zero. -/
  returned : ∀ t addr, s.pc t = some (.leave addr) → s.cv.pc t = .idle →
    addr ∈ s.obj.out ∧ ZeroPage s.obj.k.mem addr

section
variable {T : Type} [DecidableEq T] {top : Nat} {s s' : MonSys T Unit PageReg PagePoint}

/-- What holds in a run. -/
def PagesSafe (top : Nat) (s : MonSys T Unit PageReg PagePoint) : Prop :=
  MonSafe (PagesGood top) (PagesKnown top) s.cv s.obj s.pc

omit [DecidableEq T] in
theorem PagesSafe.write (h : PagesSafe top s) {y : Nat} (v : UInt8) (hy : Unclaimed s y) :
    PagesSafe top { s with obj := s.obj.write y v } := by
  refine ⟨h.mon, fun t p hp hidle => ?_, fun hfree => ?_, h.resume⟩
  · obtain ⟨vs, hledger, hknows⟩ := h.holder t p hp hidle
    have hkept : ∀ addr, p = .count addr ∨ p = .leave addr → ZeroPage s.obj.k.mem addr →
        ZeroPage (s.obj.write y v).k.mem addr := by
      intro addr hpoint hzero z hlo hhi
      have hne : z ≠ y := by
        rintro rfl
        refine hy t addr ?_ ⟨hlo, hhi⟩
        rcases hpoint with rfl | rfl
        · exact .inl hp
        · exact .inr hp
      exact (Function.update_of_ne hne v s.obj.k.mem).trans (hzero z hlo hhi)
    cases p with
    | count addr =>
      exact ⟨vs, hledger.setMem hledger.lock, hknows.1, hknows.2.1,
        hkept addr (.inl rfl) hknows.2.2⟩
    | leave addr =>
      exact ⟨vs, hledger.setMem hledger.lock, hknows.1, hkept addr (.inr rfl) hknows.2⟩
    | _ => exact ⟨vs, hledger.setMem hledger.lock, hknows⟩
  · obtain ⟨vs, hledger⟩ := h.free hfree
    exact ⟨vs, hledger.setMem hledger.lock⟩

theorem PagesSafe.step (htop : top % 4096 = 0 ∧ 8388608 ≤ top ∧ top < 2 ^ 32) {a : T × PageOp}
    (h : PagesSafe top s) (hreturns : ReturnsOut s a) (hstep : PageStep s a s') :
    PagesSafe top s' := by
  obtain ⟨t, op⟩ := a
  cases op with
  | call op =>
    have hmove : MonStep pagereg s (t, op) s' := hstep
    exact MonSafe.step h (pagereg_spec htop) hmove.move (hreturns op rfl)
  | write y v =>
    obtain ⟨hy, rfl⟩ := hstep
    exact h.write v hy

omit [DecidableEq T] in
theorem PagesSafe.ledger (h : PagesSafe top s) : ∃ low vs, Ledger top low s.obj vs :=
  MonSafe.holds h (fun ⟨vs, hledger⟩ => ⟨_, vs, hledger⟩) fun _ ⟨vs, hledger, _⟩ => ⟨_, vs, hledger⟩

omit [DecidableEq T] in
theorem PagesSafe.spec (h : PagesSafe top s) : PageSpec s := by
  obtain ⟨low, vs, hledger⟩ := h.ledger
  have hvs : s.obj.reuse.vals.vals = vs := by
    rw [hledger.reuse]
    rfl
  have hle := hledger.le
  refine ⟨hvs ▸ hledger.nodup, ?_, ?_, fun t addr hp hidle => ?_⟩
  · rw [hvs, hledger.count, Int.natCast_add]
  · rw [hledger.count, npagesMax]
    omega
  · obtain ⟨vs, -, hknows⟩ := h.holder t _ hp hidle
    exact hknows

/-- **The page registrar.**  In every run from a state of the allocators in which the pages are
apart from the byte heap, and in which `page_return` is only called on pages that are handed out. -/
theorem pageRun_registrar {L : Layout} {tr₀ : List (MemState × MemOp)} {st : MemState}
    (hboot : MemRun L tr₀ st) (hroom : Roomy tr₀)
    {tr : List (MonSys T Unit PageReg PagePoint × (T × PageOp))} (hrun : PageRun st.k tr s)
    (hreturns : ∀ e ∈ tr, ReturnsOut e.1 e.2) : PageSpec s := by
  have hinv := hboot.inv hroom
  have hbase := L.base_bounds
  have hbrk := hinv.brk
  have htop : st.k.kbrkMax % 4096 = 0 ∧ 8388608 ≤ st.k.kbrkMax ∧ st.k.kbrkMax < 2 ^ 32 :=
    ⟨hinv.top_mod, by omega, by omega⟩
  obtain ⟨bs, zu, fl, hheap, -⟩ := hinv.heap
  have hsafe : PagesSafe st.k.kbrkMax s := by
    refine Run.invariant_of (C := ReturnsOut) ?_ (fun _ _ _ hI hC hs => hI.step htop hC hs) hrun
      hreturns
    rintro _ rfl
    exact MonSafe.init ⟨[], rfl, rfl, Nat.zero_le _, List.nodup_nil, (fun p hp => nomatch hp), rfl,
      hheap.unlocked⟩
  exact hsafe.spec

theorem MonRun.pages {k : KMem} {tr : List (MonSys T Unit PageReg PagePoint × (T × MonOp PageCall))}
    (h : MonRun pagereg (pageregCreate k) tr s) :
    PageRun k (tr.map fun e => (e.1, e.2.1, .call e.2.2)) s := by
  induction h with
  | init h => exact .init h
  | step _ hs ih => exact .step ih hs

end

/-- The page that is put on the queue. -/
def PagePoint.pushed? : PagePoint → Option Nat
  | .push addr => some addr
  | _ => none

/-- The memory after boot. -/
def bootedKMem : KMem := (initKmm (initMem sampleLayout sampleKMem)).okD sampleKMem

/-- A thread gets a page, returns it, and gets it again, up to the `lock_release`. -/
def getReturnGet : List (Unit × MonOp PageCall) :=
  [.start .get, .act, .act, .act, .act, .act, .start (.ret 3230658560), .act, .act, .start .get,
    .act, .act, .act, .act, .act].map fun op => ((), op)

/-- The history of these steps. -/
def getReturnGetHistory : List (MonSys Unit Unit PageReg PagePoint × (Unit × MonOp PageCall)) ×
    MonSys Unit Unit PageReg PagePoint :=
  Run.history (fun s a => monNext pagereg s a.1 a.2) (.init (pageregCreate bootedKMem)) getReturnGet

theorem initKmm_booted : initKmm (initMem sampleLayout sampleKMem) = .ok bootedKMem := by
  have hok : (initKmm (initMem sampleLayout sampleKMem)).isOk = true := by decide +kernel
  exact Except.eq_ok_okD hok sampleKMem

theorem bootedKMem_run {k : KMem} (h : initKmm (initMem sampleLayout sampleKMem) = .ok k) :
    ∃ st, MemRun sampleLayout [] st ∧ st.k = k :=
  ⟨⟨k, [], []⟩, Run.init ⟨sampleKMem, k, h, rfl⟩, rfl⟩

theorem getReturnGet_run : MonRun pagereg (pageregCreate bootedKMem) getReturnGetHistory.1
    getReturnGetHistory.2 := by
  rw [getReturnGetHistory]
  exact monRun_of_history _ (by decide +kernel)

theorem getReturnGet_pushed : ∀ e ∈ getReturnGetHistory.1,
    ∀ addr ∈ (e.1.pc e.2.1).bind PagePoint.pushed?, addr ∈ e.1.obj.out := by
  decide +kernel

/-- The page is handed out, and all zero. -/
theorem pageRun_registrar_one : (∃ tr, PageRun bootedKMem tr getReturnGetHistory.2) ∧
    getReturnGetHistory.2.pc () = some (.leave 3230658560) ∧ PageSpec getReturnGetHistory.2 := by
  obtain ⟨st, hst, hk⟩ := bootedKMem_run initKmm_booted
  have hpages := getReturnGet_run.pages
  refine ⟨⟨_, hpages⟩, by decide +kernel, ?_⟩
  rw [← hk] at hpages
  refine pageRun_registrar hst (fun e he => nomatch he) hpages fun e he op hop hact p hp addr hq =>
    ?_
  obtain ⟨e', he', rfl⟩ := List.mem_map.1 he
  refine getReturnGet_pushed e' he' addr ?_
  rw [show e'.1.pc e'.2.1 = some p from hp, hq]
  rfl

end JinxOS
