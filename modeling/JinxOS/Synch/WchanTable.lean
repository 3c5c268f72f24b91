import JinxOS.Klib.Array
import JinxOS.Lib.IndexTable
import JinxOS.Lib.Runs

/-!
# The table of all wait channels

`wchan_create` and `wchan_destroy` of `synch/wchan.c`.  The array `allwchans` lists all channels,
and a channel stores the index of its entry.  A channel that is destroyed leaves its slot to the
last entry.

A channel is known by its address, of type `W`, and `kmalloc` returns one that is not in use.  The
threads that sleep on a channel are a list; they come and go between the calls, which only ask
whether there are any.
-/

namespace JinxOS

open Function (update update_self update_of_ne update_eq_self)

/-! ## The code -/

/-- `struct wchan`. -/
structure Wchan (T : Type) where
  name : String
  threads : List T
  index : Nat
  deriving DecidableEq

/-- The channels. -/
structure WchanSys (W T : Type) where
  allwchans : KArray W
  /-- The structures that are in use. -/
  wchan : W → Option (Wchan T)

variable {W T : Type} [DecidableEq W] [Inhabited W]

/-- The structure at an address. -/
def liveWchan (s : WchanSys W T) (wc : W) : Except Fault (Wchan T) :=
  match s.wchan wc with
  | none => .error .useAfterFree
  | some o => .ok o

/-- An assignment to a structure. -/
def WchanSys.set (s : WchanSys W T) (wc : W) (o : Option (Wchan T)) : WchanSys W T :=
  { s with wchan := update s.wchan wc o }

/-- `init_wchan`, with no channel yet. -/
def initWchan : WchanSys W T := ⟨arrayCreate, fun _ => none⟩

/-- `threadlist_cleanup(&wc->wc_threads)`. -/
def threadsCleanup (ts : List T) : Except Fault Unit := assert "threadlist_isempty(tl)" ts.isEmpty

/-- `wchan_create`; the structure is at `wc`.  The answer says whether it is returned. -/
def wchanCreate (s : WchanSys W T) (wc : W) (name : String) :
    Except Fault (Bool × WchanSys W T) := do
  let (result, index, all) ← arrayAdd s.allwchans wc
  let s := { s with allwchans := all }
  if result ≠ 0 then do
    assert "result == ENOMEM" (result == enomem)
    threadsCleanup ([] : List T)
    .ok (false, s)
  else .ok (true, s.set wc (some ⟨name, [], index⟩))

/-- `wchan_destroy` moves the last entry into the slot, unless that is the slot. -/
def wchanMoveLast (s : WchanSys W T) (index num : Nat) : Except Fault (WchanSys W T) :=
  if index < Word.sub num 1 then do
    let wc2 ← arrayGet s.allwchans (Word.sub num 1)
    let all ← arraySet s.allwchans index wc2
    let o2 ← liveWchan s wc2
    .ok ({ s with allwchans := all }.set wc2 (some { o2 with index := index }))
  else .ok s

/-- `wchan_destroy`. -/
def wchanDestroy (s : WchanSys W T) (wc : W) : Except Fault (WchanSys W T) := do
  let o ← liveWchan s wc
  let num := arrayNum s.allwchans
  let entry ← arrayGet s.allwchans o.index
  assert "wchanarray_get(&allwchans, wc->wc_index) == wc" (decide (entry = wc))
  let s ← wchanMoveLast s o.index num
  let (_, all) ← arraySetsize s.allwchans (Word.sub num 1)
  threadsCleanup o.threads
  .ok ({ s with allwchans := all }.set wc none)

/-- What happens. -/
inductive WchanOp (W T : Type)
  /-- `wchan_create(name)`. -/
  | create (wc : W) (name : String)
  /-- `wchan_destroy(wc)`. -/
  | destroy (wc : W)
  /-- Threads go to sleep on a channel, or are woken. -/
  | threads (wc : W) (ts : List T)

/-- A step that returns; a channel that is destroyed is live and empty. -/
def WchanStep (s : WchanSys W T) : WchanOp W T → WchanSys W T → Prop
  | .create wc name, s' => s.wchan wc = none ∧ ∃ res, wchanCreate s wc name = .ok (res, s')
  | .destroy wc, s' => (∃ o, s.wchan wc = some o ∧ o.threads = []) ∧ wchanDestroy s wc = .ok s'
  | .threads wc ts, s' => ∃ o, s.wchan wc = some o ∧ s' = s.set wc (some { o with threads := ts })

/-- A run after `init_wchan`. -/
def WchanRun (tr : List (WchanSys W T × WchanOp W T)) (s : WchanSys W T) : Prop :=
  Run (fun s => s = initWchan) WchanStep tr s

/-! ## The invariant -/

/-- The indices of the live channels. -/
def WchanSys.index (s : WchanSys W T) (wc : W) : Option Nat := (s.wchan wc).map Wchan.index

/-- The table is in order. -/
structure WchanInv (s : WchanSys W T) : Prop where
  wf : s.allwchans.Wf
  /-- Its entries are the live channels, in the slots that they know. -/
  table : IndexTable s.allwchans.elems s.index

section
variable {s s' : WchanSys W T} {wc : W} {o : Wchan T}

omit [Inhabited W] in
theorem WchanSys.index_set (s : WchanSys W T) (wc : W) (o : Option (Wchan T)) :
    (s.set wc o).index = update s.index wc (o.map Wchan.index) := by
  funext x
  rw [WchanSys.index, WchanSys.set]
  dsimp only
  by_cases hx : x = wc
  · subst hx
    rw [update_self, update_self]
  · rw [update_of_ne hx, update_of_ne hx]
    rfl

theorem WchanInv.create {name : String} {res : Bool} (h : WchanInv s) (hwc : s.wchan wc = none)
    (hcreate : wchanCreate s wc name = .ok (res, s')) : WchanInv s' := by
  have hnone : s.index wc = none := by
    rw [WchanSys.index, hwc]
    rfl
  rcases arrayAdd_cases h.wf wc with ⟨-, b, hb, hwf, helems⟩ | ⟨-, hfull⟩
  · rw [wchanCreate, hb, ok_bind] at hcreate
    dsimp only at hcreate
    rw [if_neg (by decide)] at hcreate
    cases hcreate
    refine ⟨hwf, ?_⟩
    rw [WchanSys.index_set]
    have htable := h.table.push hnone
    rw [h.wf.length_elems, ← helems] at htable
    exact htable
  · rw [wchanCreate, hfull, ok_bind] at hcreate
    dsimp only at hcreate
    rw [if_pos (by decide)] at hcreate
    obtain ⟨_, -, hcreate⟩ := of_bind hcreate
    obtain ⟨_, -, hcreate⟩ := of_bind hcreate
    cases hcreate
    exact h

omit [DecidableEq W] [Inhabited W] in
theorem WchanInv.entry (h : WchanInv s) (hwc : s.wchan wc = some o) :
    s.allwchans.elems[o.index]? = some wc ∧ o.index < s.allwchans.num := by
  have hindex : s.index wc = some o.index := congrArg (Option.map Wchan.index) hwc
  exact ⟨(h.table o.index wc).2 hindex, h.wf.length_elems ▸ h.table.lt hindex⟩

omit [DecidableEq W] [Inhabited W] in
theorem WchanInv.sub_one (h : WchanInv s) {i : Nat} (hi : i < s.allwchans.num) :
    Word.sub s.allwchans.num 1 = s.allwchans.num - 1 := by
  have hlt := h.wf.num_lt
  rw [Word.sub_eq]

omit [Inhabited W] in
/-- The slot is filled with the last entry, which may be the channel itself. -/
theorem WchanInv.moveLast (h : WchanInv s) (hwc : s.wchan wc = some o) :
    ∃ last s1, wchanMoveLast s o.index s.allwchans.num = .ok s1 ∧
      s.index last = some (s.allwchans.num - 1) ∧ s1.allwchans.Wf ∧
      s1.allwchans.num = s.allwchans.num ∧
      s1.allwchans.elems = s.allwchans.elems.set o.index last ∧
      s1.index = update s.index last (some o.index) := by
  obtain ⟨hentry, hlt⟩ := h.entry hwc
  have hlen := h.wf.length_elems
  have hindex : s.index wc = some o.index := congrArg (Option.map Wchan.index) hwc
  rw [wchanMoveLast, h.sub_one hlt]
  by_cases hi : o.index < s.allwchans.num - 1
  · obtain ⟨last, hlast⟩ : ∃ last, s.allwchans.elems[s.allwchans.num - 1]? = some last :=
      ⟨_, List.getElem?_eq_getElem (by omega)⟩
    have hlastIndex := (h.table _ last).1 hlast
    obtain ⟨o2, ho2, -⟩ := Option.map_eq_some_iff.1 hlastIndex
    refine ⟨last, WchanSys.set ⟨{ s.allwchans with v := s.allwchans.v.set o.index last }, s.wchan⟩
      last (some { o2 with index := o.index }), ?_, hlastIndex, h.wf.set o.index last, rfl,
      KArray.elems_set .., WchanSys.index_set ..⟩
    rw [if_pos hi, arrayGet_ok hlast, ok_bind, arraySet_ok hentry, ok_bind,
      liveWchan, ho2]
    rfl
  · have hself : o.index = s.allwchans.num - 1 := by omega
    refine ⟨wc, s, if_neg hi, hself ▸ hindex, h.wf, rfl, ?_, ?_⟩
    · obtain ⟨hlt', hget⟩ := List.getElem?_eq_some_iff.1 hentry
      rw [← hget, List.set_getElem_self]
    · rw [← hindex, update_eq_self]

/-- **`wchan_destroy`** of a live channel without sleepers returns. -/
theorem WchanInv.destroy (h : WchanInv s) (hwc : s.wchan wc = some o) (hempty : o.threads = []) :
    ∃ s', wchanDestroy s wc = .ok s' ∧ WchanInv s' := by
  obtain ⟨hentry, hlt⟩ := h.entry hwc
  have hindex : s.index wc = some o.index := congrArg (Option.map Wchan.index) hwc
  obtain ⟨last, s1, hfill, hlast, hwf, hnum, helems, hindex1⟩ := h.moveLast hwc
  obtain ⟨b, hset, hbwf, hbelems⟩ := arraySetsize_le hwf (show s.allwchans.num - 1 ≤ _ by omega)
  refine ⟨WchanSys.set ⟨b, s1.wchan⟩ wc none, ?_, hbwf, ?_⟩
  · rw [wchanDestroy, liveWchan, hwc]
    dsimp only [arrayNum]
    rw [ok_bind, arrayGet_ok hentry, ok_bind, decide_eq_true rfl, assert_true,
      ok_bind, hfill, ok_bind, h.sub_one hlt, hset, ok_bind, hempty]
    rfl
  · have htable := h.table.swapRemove hindex (h.wf.length_elems.symm ▸ hlast)
    rw [h.wf.length_elems, ← helems, ← hbelems, ← hindex1] at htable
    rw [WchanSys.index_set]
    exact htable

omit [Inhabited W] in
theorem WchanInv.threads (h : WchanInv s) (hwc : s.wchan wc = some o) (ts : List T) :
    WchanInv (s.set wc (some { o with threads := ts })) := by
  refine ⟨h.wf, ?_⟩
  have hindex : s.index wc = some o.index := congrArg (Option.map Wchan.index) hwc
  rw [WchanSys.index_set, Option.map_some, ← hindex, update_eq_self]
  exact h.table

/-- **A step keeps the table in order.** -/
theorem WchanInv.step {op : WchanOp W T} (h : WchanInv s) (hstep : WchanStep s op s') :
    WchanInv s' := by
  cases op with
  | create wc name =>
    obtain ⟨hwc, res, hcreate⟩ := hstep
    exact h.create hwc hcreate
  | destroy wc =>
    obtain ⟨⟨o, hwc, hempty⟩, hdestroy⟩ := hstep
    obtain ⟨s'', hok, hinv⟩ := h.destroy hwc hempty
    obtain rfl := Except.ok.inj (hok.symm.trans hdestroy)
    exact hinv
  | threads wc ts =>
    obtain ⟨o, hwc, rfl⟩ := hstep
    exact h.threads hwc ts

end

/-! ## Every run -/

/-- What holds of the table. -/
structure WchanSpec (s : WchanSys W T) : Prop where
  /-- Each live channel is in the table once, and nothing else is. -/
  once : ∀ wc, s.allwchans.elems.count wc = if (s.wchan wc).isSome then 1 else 0
  /-- The channel in slot `i` has index `i`. -/
  index : ∀ i wc, s.allwchans.elems[i]? = some wc → ∃ o, s.wchan wc = some o ∧ o.index = i
  /-- No assertion of `wchan_destroy` fails. -/
  destroy : ∀ wc o, s.wchan wc = some o → o.threads = [] → ∃ s', wchanDestroy s wc = .ok s'

/-- **The table of wait channels.** -/
theorem wchanRun_table {tr : List (WchanSys W T × WchanOp W T)} {s : WchanSys W T}
    (hrun : WchanRun tr s) : WchanSpec s := by
  have hinv : WchanInv s := by
    refine Run.invariant (I := WchanInv) ?_ (fun _ _ _ hI hs => hI.step hs) hrun
    rintro _ rfl
    exact ⟨arrayCreate_wf, .nil fun _ => rfl⟩
  refine ⟨fun wc => ?_, fun i wc hi => ?_, fun wc o hwc hempty => ?_⟩
  · rw [hinv.table.count wc, WchanSys.index, Option.isSome_map]
  · exact Option.map_eq_some_iff.1 ((hinv.table i wc).1 hi)
  · obtain ⟨s', hok, -⟩ := hinv.destroy hwc hempty
    exact ⟨s', hok⟩

/-- The state after a step. -/
def wchanNext (s : WchanSys W T) : WchanOp W T → WchanSys W T
  | .create wc name => ((wchanCreate s wc name).okD (false, s)).2
  | .destroy wc => (wchanDestroy s wc).okD s
  | .threads wc ts => s.set wc ((s.wchan wc).map ({ · with threads := ts }))

/-- Of two channels the first is destroyed. -/
def twoWchans : List (WchanSys Nat Unit × WchanOp Nat Unit) × WchanSys Nat Unit :=
  Run.history wchanNext initWchan [.create 1 "lock", .create 2 "sem", .destroy 1]

theorem wchanCreate_next {s : WchanSys W T} {wc : W} {name : String} (hwc : s.wchan wc = none)
    (hok : (wchanCreate s wc name).isOk = true) :
    WchanStep s (.create wc name) (wchanNext s (.create wc name)) :=
  ⟨hwc, _, Except.eq_ok_okD hok (false, s)⟩

theorem wchanDestroy_next {s : WchanSys W T} {wc : W} {o : Wchan T} (hwc : s.wchan wc = some o)
    (hempty : o.threads = []) (hok : (wchanDestroy s wc).isOk = true) :
    WchanStep s (.destroy wc) (wchanNext s (.destroy wc)) :=
  ⟨⟨o, hwc, hempty⟩, Except.eq_ok_okD hok s⟩

theorem twoWchans_run : WchanRun twoWchans.1 twoWchans.2 := by
  refine .step (.step (.step (.init rfl) (wchanCreate_next ?_ ?_)) (wchanCreate_next ?_ ?_))
    (wchanDestroy_next (o := ⟨"lock", [], 0⟩) ?_ rfl ?_)
  all_goals decide +kernel

theorem wchanRun_table_two :
    twoWchans.2.allwchans.elems = [2] ∧ WchanSpec twoWchans.2 :=
  ⟨by decide +kernel, wchanRun_table twoWchans_run⟩

end JinxOS
