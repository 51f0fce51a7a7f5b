/-
  Alterstack.Queue.Fifo — `BoundBuffer` is a queue while it is not overfull.

  Calls of `put_items_list` on single items and of `get_item` run one at a time
  on a buffer as constructed; the positions wrap.  While at most as many items
  are stored as there are slots, they lie one in a slot, in the order of the
  puts, from the get position up to the put position.

  Main results:
    * `Fifo.queued_put`, `Fifo.queued_get` — that layout is kept;
    * `Fifo.exact_fifo` — the items are returned in the order of the puts, and
      nothing is returned only when there is nothing.
-/
import Alterstack.Lib.Machine
import Alterstack.Lib.Object
import Alterstack.Queue.Alone

namespace Alterstack

namespace Fifo

open Lib Queue BoundBuffer

variable {I : Type*} [DecidableEq I]

/-! ## §1. The machine. -/

/-- `put_items_list` begins, `get_item` returns. -/
inductive Event (I : Type*) where
  | put (x : I)
  | got (item : Option I)
  deriving DecidableEq

/-- Whose call is in progress. -/
inductive Call where
  | putItemsList
  | getItem
  deriving DecidableEq

structure State (I : Type*) where
  buffer : BoundBuffer I
  next : I → Option I
  running : Option (Call × Pc I)
  log : List (Event I)

inductive Label (I : Type*) where
  | putItemsList (x : I)
  | getItem
  | run (spurious : Bool)
  | setNext (x : I) (v : Option I)

/-- The items put, newest first. -/
def puts : List (Event I) → List I
  | [] => []
  | .put x :: log => x :: puts log
  | .got _ :: log => puts log

/-- The items returned, newest first. -/
def returned : List (Event I) → List I
  | [] => []
  | .put _ :: log => returned log
  | .got (some x) :: log => x :: returned log
  | .got none :: log => returned log

/-- The item was put and not returned since. -/
def isStored (x : I) : List (Event I) → Bool
  | [] => false
  | .put y :: log => y = x || isStored x log
  | .got item :: log => x ∉ item && isStored x log

/-- After a step of the call `c`. -/
def afterRun (s : State I) (c : Call) (r : Result I) : State I where
  buffer := r.1
  next := r.2.1
  running :=
    match r.2.2 with
    | .goto pc => some (c, pc)
    | .ret _ _ => none
  log :=
    match c, r.2.2 with
    | .getItem, .ret item _ => .got item :: s.log
    | _, _ => s.log

/-- A single item is put that is not stored; links of items that are not stored
are written between the calls. -/
def step (s : State I) : Label I → Option (State I)
  | .putItemsList x =>
      if s.running = none ∧ isStored x s.log = false ∧ s.next x = none then
        some { s with
          running := some (.putItemsList, .emptyLoad .putItemsList x)
          log := .put x :: s.log }
      else none
  | .getItem =>
      if s.running = none then some { s with running := some (.getItem, .getLoad) } else none
  | .run spurious =>
      match s.running with
      | some (c, pc) => some (afterRun s c (s.buffer.step spurious s.next pc))
      | none => none
  | .setNext x v =>
      if s.running = none ∧ isStored x s.log = false then
        some { s with next := Function.update s.next x v }
      else none

/-- A buffer as constructed. -/
def initial : State I where
  buffer := ⟨0, 0, fun _ => none⟩
  next := fun _ => none
  running := none
  log := []

def machine (I : Type*) [DecidableEq I] : Machine (State I) (Label I) where
  init := fun s => s = initial
  step := step

/-- The buffer has room: fewer items than slots are stored when one is put. -/
def HasRoom (s : State I) : Label I → Prop
  | .putItemsList _ => (puts s.log).length < (returned s.log).length + bufferSize
  | _ => True

instance (s : State I) : (l : Label I) → Decidable (HasRoom s l)
  | .putItemsList _ =>
      inferInstanceAs (Decidable ((puts s.log).length < (returned s.log).length + bufferSize))
  | .getItem => .isTrue trivial
  | .run _ => .isTrue trivial
  | .setNext _ _ => .isTrue trivial

/-! ## §2. The layout. -/

variable {A : Queue.Shelf I} {q : List I} {x : I}

/-- The items of `q` lie one in a slot, from the get position on. -/
structure Queued (A : Queue.Shelf I) (q : List I) : Prop where
  length : q.length ≤ bufferSize
  put : A.put = A.get + Fin.ofNat bufferSize q.length
  lists : ∀ k : Fin bufferSize, A.lists (A.get + k) = q[k.val]?.toList

omit [DecidableEq I] in
/-- The next free slot is the one at the put position. -/
theorem queued_put (h : Queued A q) (hroom : q.length < bufferSize) :
    ∃ A', A.storeEmpty [x] = some A' ∧ Queued A' (q ++ [x]) := by
  have hput : A.put = A.get + ⟨q.length, hroom⟩ := by
    rw [h.put]
    congr 1
    exact Fin.ext (Nat.mod_eq_of_lt hroom)
  have hempty : A.lists A.put = [] := by
    rw [hput, h.lists]
    simp
  -- that slot is free, so the scan stops at it
  have hscan : scan (fun k => (A.lists (A.put + k)).isEmpty) = some 0 :=
    scan_eq_some (by simp [hempty]) (fun j hj => absurd hj (Fin.not_lt_zero j))
  have hstore : A.storeEmpty [x] = some { A.setList A.put [x] with put := A.put + 1 } := by
    simp [Shelf.storeEmpty, hscan]
  refine ⟨_, hstore, ?_, ?_, fun k => ?_⟩
  · rw [List.length_append, List.length_singleton]
    omega
  · show A.put + 1 = A.get + _
    rw [hput, add_assoc]
    congr 1
    refine Fin.ext ?_
    simp [Fin.val_add]
  -- one slot for one item: the new one is the last of the queue
  · show Function.update A.lists A.put [x] (A.get + k) = (q ++ [x])[k.val]?.toList
    by_cases hk : k.val = q.length
    · have hslot : A.get + k = A.put := by
        rw [hput]
        congr 1
        exact Fin.ext hk
      rw [hslot, Function.update_self, hk]
      simp
    · have hslot : A.get + k ≠ A.put := by
        rw [hput]
        intro heq
        exact hk (congrArg Fin.val (add_left_cancel heq))
      rw [Function.update_of_ne hslot, h.lists, List.getElem?_append]
      split
      next => rfl
      next hge =>
        have hone : [x].length ≤ k.val - q.length := by
          rw [List.length_singleton]
          omega
        rw [List.getElem?_eq_none (by omega), List.getElem?_eq_none hone]

omit [DecidableEq I] in
/-- The first item lies at the get position. -/
theorem queued_get (h : Queued A (x :: q)) :
    ∃ A', A.getItem = some (x, false, A') ∧ Queued A' q := by
  have hlength : q.length < bufferSize := by
    have := h.length
    rw [List.length_cons] at this
    omega
  have hlist : A.lists (A.get + 0) = [x] := by
    rw [h.lists]
    rfl
  have hfirst : A.firstFull = some 0 := by
    refine scan_eq_some ?_ (fun j hj => absurd hj (Fin.not_lt_zero j))
    rw [hlist]
    rfl
  have hget : A.getItem =
      some (x, false, { A.setList (A.get + 0) [] with get := A.get + 0 + 1 }) := by
    simp only [Shelf.getItem, hfirst, hlist, if_true]
  refine ⟨_, hget, hlength.le, ?_, fun k => ?_⟩
  · show A.put = A.get + 0 + 1 + _
    rw [h.put, add_zero, add_assoc]
    congr 1
    refine Fin.ext ?_
    simp [Fin.val_add, add_comm]
  · show Function.update A.lists (A.get + 0) [] (A.get + 0 + 1 + k) = q[k.val]?.toList
    rw [add_zero, add_assoc]
    have hval : (1 + k).val = (k.val + 1) % 4 := by
      rw [Fin.val_add, add_comm]
      rfl
    by_cases hk : 1 + k = 0
    · -- the slot just emptied is behind all others
      have hlast : q.length ≤ k.val := by
        have := congrArg Fin.val hk
        rw [hval] at this
        have hzero : (k.val + 1) % 4 = 0 := this
        have hlt : q.length < 4 := hlength
        omega
      rw [hk, add_zero, Function.update_self, List.getElem?_eq_none hlast]
      rfl
    · have hslot : A.get + (1 + k) ≠ A.get := by
        intro heq
        exact hk (add_eq_left.mp heq)
      have hsucc : (1 + k).val = k.val + 1 := by
        have hne : (1 + k).val ≠ 0 := fun hzero => hk (Fin.ext hzero)
        have hlt : k.val < 4 := k.isLt
        omega
      rw [Function.update_of_ne hslot, h.lists, hsucc, List.getElem?_cons_succ]

omit [DecidableEq I] in
theorem queued_get_nil (h : Queued A []) : A.getItem = none := by
  have hlists : ∀ k, A.lists (A.get + k) = [] := by
    intro k
    rw [h.lists]
    rfl
  have hfirst : A.firstFull = none := scan_eq_none (fun k => by simp [hlists])
  simp only [Shelf.getItem, hfirst]

/-! ## §3. The buffer as a queue. -/

/-- A queue: items leave it in the order in which they came. -/
inductive QueueStep : List I → Event I → List I → Prop
  | put {q : List I} (x : I) : x ∉ q → QueueStep q (.put x) (q ++ [x])
  | gotNone : QueueStep [] (.got none) []
  | gotSome {q : List I} (x : I) : QueueStep (x :: q) (.got (some x)) q

def queue (I : Type*) : Object (List I) (Event I) where
  init := []
  step := QueueStep

variable {log : List (Event I)}

omit [DecidableEq I] in
/-- In a legal log the items put are those returned, in the same order, and
those still there. -/
theorem legal_order (h : (queue I).Legal log q) : puts log = q.reverse ++ returned log := by
  induction h with
  | nil => rfl
  | cons _ hstep ih =>
      cases hstep with
      | put x hx => simp [puts, returned, ih]
      | gotNone => simpa [puts, returned] using ih
      | gotSome x => simpa [puts, returned] using ih

/-- The memory of a queue at rest. -/
def Rest (q : List I) (m : Memory I) : Prop :=
  ∃ A, Holds m.1 m.2 m.2 A [] ∧ Queued A q

/-- How a call will return: a `put_items_list` has already taken effect, a
`get_item` not yet. -/
def Post : Call → List I → Memory I → Option I × Bool → Prop
  | .putItemsList, q, m, _ => Rest q m
  | .getItem, [], m, r => r.1 = none ∧ Rest [] m
  | .getItem, x :: q, m, r => r.1 = some x ∧ Rest q m

/-- The state is that of the queue `q`. -/
structure Sim (s : State I) (q : List I) : Prop where
  nodup : q.Nodup
  isStored : ∀ x, isStored x s.log = true ↔ x ∈ q
  length : (puts s.log).length = (returned s.log).length + q.length
  idle : s.running = none → Rest q (s.buffer, s.next)
  running : ∀ c pc, s.running = some (c, pc) →
    (program I).Returns (Post c q) (s.buffer, s.next) pc

variable {s s' : State I}

omit [DecidableEq I] in
theorem queued_mem (h : Queued A q) (hx : x ∈ A.items) : x ∈ q := by
  obtain ⟨i, hi⟩ := Shelf.mem_items.mp hx
  have hlist := h.lists (i - A.get)
  rw [add_sub_cancel] at hlist
  rw [hlist, Option.mem_toList] at hi
  exact List.mem_of_getElem? hi

omit [DecidableEq I] in
theorem rest_of_holds {m : Memory I} {own : List I} {old : I → Option I}
    (h : Holds m.1 m.2 old A own) (hq : Queued A q) : Rest q m := by
  refine ⟨A, ⟨h.get, h.put, h.seg, ?_, fun _ _ => rfl⟩, hq⟩
  rw [Multiset.coe_nil, add_zero]
  exact (Multiset.nodup_add.mp h.nodup).1

/-- `get_item` on a queue. -/
theorem getItem_post {b : BoundBuffer I} {next : I → Option I} (h : Rest q (b, next)) :
    (program I).Returns (Post .getItem q) (b, next) .getLoad := by
  obtain ⟨A, hA, hq⟩ := h
  cases q with
  | nil =>
      refine getLoad_returns hA (fun x more A' hget => ?_) (fun _ => ⟨rfl, A, hA, hq⟩)
      rw [queued_get_nil hq] at hget
      cases hget
  | cons x q =>
      obtain ⟨A₁, hA₁, hq₁⟩ := queued_get hq
      refine getLoad_returns hA (fun y more A' hget m r hm => ?_) (fun hnone => ?_)
      · rw [hA₁] at hget
        cases hget
        exact ⟨congrArg Prod.fst hm.1, rest_of_holds hm.2.2 hq₁⟩
      · rw [hA₁] at hnone
        cases hnone

/-- `put_items_list` of a single item on a queue with room. -/
theorem putItemsList_post {b : BoundBuffer I} {next : I → Option I} (h : Rest q (b, next))
    (hroom : q.length < bufferSize) (hnull : next x = none) (hx : x ∉ q) :
    (program I).Returns (Post .putItemsList (q ++ [x])) (b, next) (.emptyLoad .putItemsList x) := by
  obtain ⟨A, hA, hq⟩ := h
  obtain ⟨A', hA', hq'⟩ := queued_put (x := x) hq hroom
  have hown : Holds b next next A [x] := by
    refine ⟨hA.get, hA.put, hA.seg, Multiset.nodup_add.mpr ⟨?_, by simp, ?_⟩, fun _ _ => rfl⟩
    · have := hA.nodup
      rwa [Multiset.coe_nil, add_zero] at this
    · rw [Multiset.coe_singleton, Multiset.disjoint_singleton]
      exact fun hmem => hx (queued_mem hq hmem)
  refine putItemsList_returns hown ⟨rfl, hnull⟩ (fun m hm => rest_of_holds hm ?_)
  rw [Shelf.storeList, hA', Option.getD_some]
  exact hq'

theorem sim_initial : Sim (initial : State I) [] := by
  refine ⟨.nil, by simp [initial, Fifo.isStored], rfl, fun _ => ?_, nofun⟩
  refine ⟨⟨0, 0, fun _ => []⟩, ⟨rfl, rfl, fun _ => rfl, ?_, fun _ _ => rfl⟩, by simp, rfl, ?_⟩
  · simp [Shelf.items]
  · simp

theorem sim_putItemsList (h : Sim s q) (hidle : s.running = none)
    (hout : Fifo.isStored x s.log = false) (hnull : s.next x = none)
    (hroom : q.length < bufferSize) :
    x ∉ q ∧ Sim { s with
      running := some (.putItemsList, .emptyLoad .putItemsList x)
      log := .put x :: s.log } (q ++ [x]) := by
  have hx : x ∉ q := by
    intro hmem
    rw [(h.isStored x).mpr hmem] at hout
    cases hout
  refine ⟨hx, ?_, fun y => ?_, ?_, nofun, ?_⟩
  · refine List.nodup_append.mpr ⟨h.nodup, by simp, fun y hy z hz hyz => ?_⟩
    rw [List.mem_singleton] at hz
    exact hx (hz ▸ hyz ▸ hy)
  · rw [List.mem_append, List.mem_singleton, ← h.isStored y]
    by_cases hy : x = y
    · simp [Fifo.isStored, hy]
    · simp [Fifo.isStored, hy, Ne.symm hy]
  · simp only [puts, returned, List.length_cons, List.length_append, List.length_nil]
    have := h.length
    omega
  · intro c pc hrun
    cases hrun
    exact putItemsList_post (h.idle hidle) hroom hnull hx

/-- A step inside a call. -/
theorem sim_run (h : Sim s q) {c : Call} {pc : Pc I} (hrun : s.running = some (c, pc))
    (spurious : Bool) :
    ((afterRun s c (s.buffer.step spurious s.next pc)).log = s.log ∧
        Sim (afterRun s c (s.buffer.step spurious s.next pc)) q) ∨
      ∃ e q', (afterRun s c (s.buffer.step spurious s.next pc)).log = e :: s.log ∧
        QueueStep q e q' ∧ Sim (afterRun s c (s.buffer.step spurious s.next pc)) q' := by
  have hreturns := h.running c pc hrun
  cases hr : (s.buffer.step spurious s.next pc).2.2 with
  -- the call goes on: the log and the abstract queue stay
  | goto pc' =>
      have hlog : (afterRun s c (s.buffer.step spurious s.next pc)).log = s.log := by
        cases c <;> simp [afterRun, hr]
      refine .inl ⟨hlog, h.nodup, ?_, ?_, ?_, ?_⟩
      · rw [hlog]
        exact h.isStored
      · rw [hlog]
        exact h.length
      · intro hnone
        simp [afterRun, hr] at hnone
      · intro c' pc'' hrun'
        simp only [afterRun, hr, Option.some.injEq, Prod.mk.injEq] at hrun'
        obtain ⟨rfl, rfl⟩ := hrun'
        refine hreturns.step_goto spurious ?_
        simp only [program, hr]
        rfl
  | ret item more =>
      have hpost := hreturns.step_ret spurious
        (t := ((s.buffer.step spurious s.next pc).1, (s.buffer.step spurious s.next pc).2.1))
        (v := (item, more)) (by
          simp only [program, hr]
          rfl)
      have hsim : ∀ q', q'.Nodup →
          (∀ x, Fifo.isStored x (afterRun s c (s.buffer.step spurious s.next pc)).log = true ↔
            x ∈ q') →
          (puts (afterRun s c (s.buffer.step spurious s.next pc)).log).length =
            (returned (afterRun s c (s.buffer.step spurious s.next pc)).log).length + q'.length →
          Rest q' ((s.buffer.step spurious s.next pc).1, (s.buffer.step spurious s.next pc).2.1) →
          Sim (afterRun s c (s.buffer.step spurious s.next pc)) q' := by
        intro q' hnodup hstored hlength hrest
        refine ⟨hnodup, hstored, hlength, fun _ => hrest, fun c' pc' hrun' => ?_⟩
        simp [afterRun, hr] at hrun'
      cases c with
      | putItemsList =>
          have hlog : (afterRun s .putItemsList (s.buffer.step spurious s.next pc)).log =
              s.log := by
            simp [afterRun]
          refine .inl ⟨hlog, hsim q h.nodup ?_ ?_ hpost⟩
          · rw [hlog]
            exact h.isStored
          · rw [hlog]
            exact h.length
      | getItem =>
          have hlog : (afterRun s .getItem (s.buffer.step spurious s.next pc)).log =
              .got item :: s.log := by
            simp [afterRun, hr]
          cases q with
          -- `get_item` looked at every slot and found none
          | nil =>
              obtain ⟨hnone, hrest⟩ := hpost
              have hitem : item = none := hnone
              subst hitem
              refine .inr ⟨_, [], hlog, .gotNone, hsim [] .nil ?_ ?_ hrest⟩
              · rw [hlog]
                simpa [Fifo.isStored] using h.isStored
              · rw [hlog]
                exact h.length
          -- it took the front, which is the only item that leaves
          | cons x q =>
              obtain ⟨hsome, hrest⟩ := hpost
              have hitem : item = some x := hsome
              subst hitem
              obtain ⟨hx, hnodup⟩ := List.nodup_cons.mp h.nodup
              refine .inr ⟨_, q, hlog, .gotSome x, hsim q hnodup ?_ ?_ hrest⟩
              · rw [hlog]
                intro y
                have hy := h.isStored y
                rw [List.mem_cons] at hy
                by_cases hyx : x = y
                · subst hyx
                  simp [Fifo.isStored, hx]
                · simpa [Fifo.isStored, hyx, Ne.symm hyx] using hy
              · rw [hlog]
                have := h.length
                simp only [puts, returned, List.length_cons] at this ⊢
                omega

theorem sim_step (h : Sim s q) {l : Label I} (hroom : HasRoom s l) (hstep : step s l = some s') :
    (s'.log = s.log ∧ Sim s' q) ∨ ∃ e q', s'.log = e :: s.log ∧ QueueStep q e q' ∧ Sim s' q' := by
  cases l with
  -- a put takes effect when it is called: its place in the order is fixed
  | putItemsList x =>
      simp only [step] at hstep
      split at hstep
      next hguard =>
        obtain ⟨hidle, hout, hnull⟩ := hguard
        cases hstep
        have hlt : q.length < bufferSize := by
          have hlength := h.length
          have hlt : (puts s.log).length < (returned s.log).length + bufferSize := hroom
          omega
        obtain ⟨hx, hsim⟩ := sim_putItemsList h hidle hout hnull hlt
        exact .inr ⟨_, _, rfl, .put x hx, hsim⟩
      next => cases hstep
  | getItem =>
      simp only [step] at hstep
      split at hstep
      next hidle =>
        cases hstep
        refine .inl ⟨rfl, h.nodup, h.isStored, h.length, nofun, fun c pc hrun => ?_⟩
        cases hrun
        exact getItem_post (h.idle hidle)
      next => cases hstep
  | run spurious =>
      simp only [step] at hstep
      split at hstep
      next c pc hrun =>
        cases hstep
        exact sim_run h hrun spurious
      next => cases hstep
  | setNext x v =>
      simp only [step] at hstep
      split at hstep
      next hguard =>
        obtain ⟨hidle, hout⟩ := hguard
        cases hstep
        refine .inl ⟨rfl, h.nodup, h.isStored, h.length, fun _ => ?_, fun c pc hrun => ?_⟩
        -- an item outside the buffer is in no list of it
        · obtain ⟨A, hA, hq⟩ := h.idle hidle
          have hx : ∀ i, x ∉ A.lists i := by
            intro i hi
            have hmem := (h.isStored x).mpr (queued_mem hq (Shelf.mem_items.mpr ⟨i, hi⟩))
            rw [hout] at hmem
            cases hmem
          exact ⟨A, ⟨hA.get, hA.put, fun i => (hA.seg i).frame (hx i) v, hA.nodup,
            fun _ _ => rfl⟩, hq⟩
        · rw [hidle] at hrun
          cases hrun
      next => cases hstep

theorem legal (h : (machine I).Reach HasRoom s) : ∃ q, (queue I).Legal s.log q ∧ Sim s q := by
  refine Machine.Reach.legal (M := machine I) (L := State.log) (R := Sim) ?_ ?_ h
  · rintro s rfl
    exact ⟨rfl, sim_initial⟩
  · intro s l t q hsim hroom hstep
    exact sim_step hsim hroom hstep

/-- A call in progress returns. -/
theorem returns (h : Sim s q) (hne : s.running ≠ none) :
    ∃ n s', (machine I).replay s (List.replicate n (.run false)) = some s' ∧
      s'.running = none := by
  obtain ⟨⟨c, pc⟩, hrun⟩ := Option.ne_none_iff_exists'.mp hne
  have hstep : ∀ (u : State I) pc, u.running = some (c, pc) → step u (.run false) =
      some (afterRun u c (u.buffer.step false u.next pc)) := by
    intro u pc hu
    simp only [step, hu]
  refine (h.running c pc hrun).replay (M := machine I)
    (R := fun u m pc => u.running = some (c, pc) ∧ (u.buffer, u.next) = m) ?_ ?_ ⟨hrun, rfl⟩
  · rintro u m pc m' pc' ⟨hu, rfl⟩ hs
    obtain ⟨rfl, hgoto⟩ := program_goto hs
    refine ⟨_, hstep u pc hu, ?_, rfl⟩
    simp [afterRun, hgoto]
  · rintro u m pc m' r ⟨hu, rfl⟩ hs
    obtain ⟨-, hret⟩ := program_ret hs
    exact ⟨_, hstep u pc hu, by simp [afterRun, hret]⟩

/-- **Exact FIFO.**  In every run that puts items only while there is room, the
items returned are the first of those put, in their order; `get_item` returns
null only when all are returned; and every call returns. -/
theorem exact_fifo (s : State I) (h : (machine I).Reach HasRoom s) :
    (returned s.log).reverse <+: (puts s.log).reverse ∧
      (∀ log, s.log = .got none :: log → returned log = puts log) ∧
      (s.running ≠ none → ∃ n s', (machine I).replay s (List.replicate n (.run false)) = some s' ∧
        s'.running = none) := by
  obtain ⟨q, hlegal, hsim⟩ := legal h
  refine ⟨?_, fun log hlog => ?_, returns hsim⟩
  · rw [legal_order hlegal, List.reverse_append, List.reverse_reverse]
    exact List.prefix_append _ _
  · rw [hlog] at hlegal
    obtain ⟨q', hq', hstep⟩ := Object.legal_cons.mp hlegal
    cases hstep with
    | gotNone => exact (legal_order hq').symm

/-- Four items fill the buffer, two leave it, one comes back, the positions go
round. -/
def goRound : List (Label ℕ) :=
  [1, 2, 3, 4].flatMap (fun x => .putItemsList x :: List.replicate 3 (.run false)) ++
  .getItem :: List.replicate 3 (.run false) ++ .getItem :: List.replicate 3 (.run false) ++
  .putItemsList 1 :: List.replicate 3 (.run false) ++
  .getItem :: List.replicate 3 (.run false)

theorem exact_fifo_goRound :
    ∃ s : State ℕ, (puts s.log).reverse = [1, 2, 3, 4, 1] ∧ (returned s.log).reverse = [1, 2, 3] ∧
      (returned s.log).reverse <+: (puts s.log).reverse := by
  obtain ⟨s, hs, hp⟩ := Machine.exists_reach_of_replayOk (machine ℕ) HasRoom goRound
    (fun s => (puts s.log).reverse = [1, 2, 3, 4, 1] ∧ (returned s.log).reverse = [1, 2, 3])
    rfl (by decide)
  obtain ⟨hputs, hreturned⟩ := of_decide_eq_true hp
  exact ⟨s, hputs, hreturned, (exact_fifo s hs).1⟩

end Fifo

end Alterstack
