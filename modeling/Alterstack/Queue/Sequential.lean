/-
  Alterstack.Queue.Sequential — `LockFreeQueue` with one call at a time.

  The machine of `Conservation` with a single caller, from a queue constructed
  with any values of the two positions; links of items outside the queue are
  written only between the calls.  Its calls take effect one after another on a
  `Store`: what `get_item` returns is computed by `Store.getItem`.

  Main results:
    * `Sequential.legal` — the log of every run is legal for the store;
    * `Sequential.returns` — a call in progress returns.
-/
import Alterstack.Lib.Object
import Alterstack.Queue.Alone
import Alterstack.Queue.Conservation

namespace Alterstack

namespace Sequential

open Lib Queue LockFreeQueue
open Conservation (Event Holder State Label Inv holder isPut afterRun returnEvent)

variable {I : Type*} [DecidableEq I]

/-! ## §1. The machine. -/

/-- A queue as constructed, but for the values of its positions. -/
def initial (getPosition putPosition : UInt32) : State Unit I where
  queue := { itemBuffer := ⟨getPosition, putPosition, fun _ => none⟩, prioQueue := fun _ => none }
  next := fun _ => none
  thread := fun _ => none
  log := []

def step (s : State Unit I) : Label Unit I → Option (State Unit I)
  | .setNext x v => if s.thread () = none then Conservation.step s (.setNext x v) else none
  | l => Conservation.step s l

def machine (I : Type*) [DecidableEq I] (getPosition putPosition : UInt32) :
    Machine (State Unit I) (Label Unit I) where
  init := fun s => s = initial getPosition putPosition
  step := step

variable {s s' : State Unit I} {g p : UInt32}

/-- A link is written while no call is in progress. -/
theorem step_setNext {x : I} {v : Option I} (h : step s (.setNext x v) = some s') :
    s.thread () = none ∧ Conservation.step s (.setNext x v) = some s' := by
  simp only [step] at h
  split at h
  next hidle => exact ⟨hidle, h⟩
  next => cases h

theorem step_conservation {l : Label Unit I} (h : step s l = some s') :
    Conservation.step s l = some s' := by
  cases l with
  | setNext x v => exact (step_setNext h).2
  | putItem => exact h
  | getItem => exact h
  | run => exact h

/-- The sequential runs are runs of the concurrent machine, but for where they
start. -/
theorem inv_reachable (h : (machine I g p).Reachable s) : ∃ L, Inv s L := by
  refine Machine.Reach.invariant (M := machine I g p) (I := fun s => ∃ L, Inv s L) ?_ ?_ h
  · rintro s rfl
    refine ⟨.empty, ?_, fun _ => rfl, by simp [initial, holder], trivial, by simp [initial]⟩
    rintro (i | i) <;> rfl
  · intro s l t hs _ hstep
    exact Conservation.inv_step hs (step_conservation hstep)

/-! ## §2. The store as an object. -/

/-- What the events do to a store: an item that is put was not stored, and
`get_item` returns what the store says. -/
inductive StoreStep : Store I → Event Unit I → Store I → Prop
  | put {A : Store I} {x : I} (t : Unit) (prio : UInt32) :
      x ∉ A.items → StoreStep A (.put t x prio) (A.putItem x prio)
  | stored {A : Store I} (t : Unit) : StoreStep A (.stored t) A
  | wrote {A : Store I} {x : I} (v : Option I) : x ∉ A.items → StoreStep A (.wrote x v) A
  | gotNone {A : Store I} (t : Unit) : A.getItem = none → StoreStep A (.got t none false) A
  | gotSome {A B : Store I} {x : I} {more : Bool} (t : Unit) :
      A.getItem = some (x, more, B) → StoreStep A (.got t (some x) more) B

/-- The empty store at these positions. -/
def emptyStore (g p : UInt32) : Store I where
  itemBuffer := ⟨BoundBuffer.slot g, BoundBuffer.slot p, fun _ => []⟩
  prioQueue := fun _ => []

def object (I : Type*) [DecidableEq I] (g p : UInt32) : Object (Store I) (Event Unit I) where
  init := emptyStore g p
  step := StoreStep

/-- How a call will return when the store is `A`. -/
def Post (A : Store I) (pc : Pc I) : Memory I → Option I × Bool → Prop :=
  if isPut pc then Stored A else Got A

/-- The state has the store `A`; a `put_item` in progress has already taken
effect on it, a `get_item` not yet. -/
structure Sim (s : State Unit I) (A : Store I) : Prop where
  nodup : A.items.Nodup
  holder : ∀ x, x ∈ A.items ↔ holder s.log x = .queued
  idle : s.thread () = none → Holds s.queue s.next A []
  running : ∀ pc, s.thread () = some pc →
    (program I).Returns (Post A pc) (s.queue, s.next) pc

variable {A : Store I} {pc pc' : Pc I}

omit [DecidableEq I] in
theorem emptyStore_items : (emptyStore g p : Store I).items = 0 := by
  simp [emptyStore, Store.items, Shelf.items]

theorem sim_initial : Sim (initial g p) (emptyStore g p : Store I) := by
  refine ⟨?_, fun x => ?_, fun _ => ⟨rfl, rfl, fun _ => rfl, fun _ => rfl, ?_⟩, ?_⟩
  · simp [emptyStore_items]
  · simp [emptyStore_items, initial, Conservation.holder]
  · simp [emptyStore_items]
  · intro pc hpc
    cases hpc

/-- A call stays what it is. -/
theorem isPut_goto {q : LockFreeQueue I} {next : I → Option I} {spurious : Bool}
    (h : (q.step spurious next pc).2.2 = .goto pc') : isPut pc' = isPut pc := by
  cases pc with
  | getBuffer pc =>
      simp only [LockFreeQueue.step] at h
      split at h <;> cases h <;> rfl
  | pop i =>
      simp only [LockFreeQueue.step] at h
      split at h
      · unfold nextPop at h
        split at h <;> cases h
        rfl
      · dsimp only at h
        split at h <;> cases h
        rfl
  | putRest item pc =>
      simp only [LockFreeQueue.step] at h
      split at h <;> cases h
      rfl
  | putPrio pc =>
      simp only [LockFreeQueue.step] at h
      split at h <;> cases h
      rfl
  | push i item pc =>
      simp only [LockFreeQueue.step] at h
      split at h <;> cases h
      rfl

/-! ## §3. The runs. -/

/-- `put_item` is called: from here on the item is stored. -/
theorem sim_putItem (h : Sim s A) {x : I} (prio : UInt32) (hidle : s.thread () = none)
    (hout : Conservation.holder s.log x ≠ .queued) :
    x ∉ A.items ∧ Sim { s with
      thread := Function.update s.thread () (some (putItem x prio))
      log := .put () x prio :: s.log } (A.putItem x prio) := by
  have hx : x ∉ A.items := fun hmem => hout ((h.holder x).mp hmem)
  have hholds : Holds s.queue s.next A [x] := (h.idle hidle).receive hx
  refine ⟨hx, ?_, fun y => ?_, ?_, ?_⟩
  · rw [Store.putItem_items]
    exact Multiset.nodup_cons.mpr ⟨hx, h.nodup⟩
  · simp only [Store.putItem_items, Multiset.mem_cons, Conservation.holder]
    by_cases hy : y = x
    · simp [hy]
    · simpa [hy] using h.holder y
  · intro hnone
    simp at hnone
  · intro pc hpc
    simp only [Function.update_self, Option.some.injEq] at hpc
    subst hpc
    have hput : isPut (putItem x prio : Pc I) = true := by
      unfold putItem
      split <;> rfl
    rw [Post, if_pos hput]
    exact putItem_returns hholds prio

/-- A step inside a call that goes on. -/
theorem sim_goto (h : Sim s A) (hpc : s.thread () = some pc) {spurious : Bool}
    (hr : (s.queue.step spurious s.next pc).2.2 = .goto pc') :
    Sim (afterRun s () pc (s.queue.step spurious s.next pc)) A := by
  refine ⟨h.nodup, ?_, ?_, ?_⟩
  · simp only [afterRun, hr]
    exact h.holder
  · intro hnone
    simp [afterRun, hr] at hnone
  · intro pc'' hpc''
    simp only [afterRun, hr, Function.update_self, Option.some.injEq] at hpc''
    subst hpc''
    have hpost : Post A pc' = Post A pc := by
      unfold Post
      rw [isPut_goto hr]
    rw [hpost]
    refine (h.running pc hpc).step_goto spurious ?_
    simp only [program, hr]
    rfl

/-- The step that returns: `get_item` takes effect. -/
theorem sim_ret (h : Sim s A) (hpc : s.thread () = some pc) {spurious haveMore : Bool}
    {item : Option I} (hr : (s.queue.step spurious s.next pc).2.2 = .ret item haveMore) :
    ∃ B, StoreStep A (returnEvent () pc item haveMore) B ∧
      Sim (afterRun s () pc (s.queue.step spurious s.next pc)) B := by
  have hpost := (h.running pc hpc).step_ret spurious
    (t := ((s.queue.step spurious s.next pc).1, (s.queue.step spurious s.next pc).2.1))
    (v := (item, haveMore)) (by
      simp only [program, hr]
      rfl)
  have hidle : ∀ B, B.items.Nodup →
      Holds (s.queue.step spurious s.next pc).1 (s.queue.step spurious s.next pc).2.1 B [] →
      (∀ x, x ∈ B.items ↔
        Conservation.holder (returnEvent () pc item haveMore :: s.log) x = .queued) →
      Sim (afterRun s () pc (s.queue.step spurious s.next pc)) B := by
    intro B hnodup hB hholder
    refine ⟨hnodup, ?_, fun _ => hB, ?_⟩
    · simp only [afterRun, hr]
      exact hholder
    · intro pc' hpc'
      simp [afterRun, hr] at hpc'
  unfold Post at hpost
  cases hput : isPut pc with
  -- a put took effect when it was called
  | true =>
      rw [if_pos hput] at hpost
      refine ⟨A, ?_, hidle A h.nodup hpost.2 ?_⟩
      · rw [returnEvent, if_pos hput]
        exact .stored ()
      · rw [returnEvent, if_pos hput]
        exact h.holder
  -- `get_item` takes effect now
  | false =>
      rw [if_neg (by simp [hput])] at hpost
      unfold Got at hpost
      rw [returnEvent, if_neg (by simp [hput])]
      cases hget : A.getItem with
      | none =>
          rw [hget] at hpost
          obtain ⟨hret, hA⟩ := hpost
          cases hret
          refine ⟨A, .gotNone () hget, hidle A h.nodup hA (fun x => ?_)⟩
          rw [returnEvent, if_neg (by simp [hput]), h.holder x]
          simp [Conservation.holder]
      | some r =>
          obtain ⟨x, more, B⟩ := r
          rw [hget] at hpost
          obtain ⟨hret, -, hB⟩ := hpost
          cases hret
          obtain ⟨hitems, -⟩ := Store.getItem_items hget
          have hnodup := h.nodup
          rw [hitems, Multiset.nodup_cons] at hnodup
          refine ⟨B, .gotSome () hget, hidle B hnodup.2 hB (fun y => ?_)⟩
          rw [returnEvent, if_neg (by simp [hput])]
          have hA := h.holder y
          rw [hitems, Multiset.mem_cons] at hA
          simp only [Conservation.holder, Option.mem_some_iff]
          by_cases hy : x = y
          · subst hy
            simp [hnodup.1]
          · rw [if_neg hy, ← hA]
            exact ⟨.inr, fun hor => hor.resolve_left (Ne.symm hy)⟩

theorem sim_step (h : Sim s A) {l : Label Unit I} (hstep : step s l = some s') :
    (s'.log = s.log ∧ Sim s' A) ∨
      ∃ e B, s'.log = e :: s.log ∧ StoreStep A e B ∧ Sim s' B := by
  cases l with
  | putItem t x prio =>
      obtain ⟨hidle, hout, -, rfl⟩ := Conservation.step_putItem (step_conservation hstep)
      have hnot : Conservation.holder s.log x ≠ .queued := by
        rcases hout with ho | ho <;> simp [ho]
      obtain ⟨hx, hsim⟩ := sim_putItem h (x := x) prio hidle hnot
      exact .inr ⟨_, _, rfl, .put t prio hx, hsim⟩
  | getItem t =>
      obtain ⟨hidle, rfl⟩ := Conservation.step_getItem (step_conservation hstep)
      refine .inl ⟨rfl, h.nodup, h.holder, ?_, ?_⟩
      · intro hnone
        simp at hnone
      · intro pc hpc
        simp only [Function.update_self, Option.some.injEq] at hpc
        subst hpc
        exact getItem_returns (h.idle hidle)
  | run t spurious =>
      obtain ⟨pc, hpc, rfl⟩ := Conservation.step_run (step_conservation hstep)
      cases hr : (s.queue.step spurious s.next pc).2.2 with
      | goto pc' =>
          refine .inl ⟨?_, sim_goto h hpc hr⟩
          simp only [afterRun, hr]
      | ret item more =>
          obtain ⟨B, hB, hsim⟩ := sim_ret h hpc hr
          refine .inr ⟨_, B, ?_, hB, hsim⟩
          simp only [afterRun, hr]
  | setNext x v =>
      obtain ⟨hidle, hset⟩ := step_setNext hstep
      obtain ⟨hout, rfl⟩ := Conservation.step_setNext hset
      -- a link outside the store is no part of any list of it
      have hx : x ∉ A.items := fun hmem => hout ((h.holder x).mp hmem)
      refine .inr ⟨_, A, rfl, .wrote v hx, h.nodup, fun y => h.holder y, fun _ => ?_, ?_⟩
      · refine (h.idle hidle).congr (fun y hy => ?_)
        have hyx : y ≠ x := fun hyx => hx (hyx ▸ hy)
        simp [hyx]
      · intro pc hpc
        rw [hidle] at hpc
        cases hpc

/-- **The calls of every run take effect one after another on the store.** -/
theorem legal (h : (machine I g p).Reachable s) :
    ∃ A, (object I g p).Legal s.log A ∧ Sim s A := by
  refine Machine.Reach.legal (M := machine I g p) (L := State.log) (R := Sim) ?_ ?_ h
  · rintro s rfl
    exact ⟨rfl, sim_initial⟩
  · intro s l t A hsim _ hstep
    exact sim_step hsim hstep

/-- **A call in progress returns**, alone and unless a compare-exchange fails
spuriously for ever. -/
theorem returns (h : Sim s A) (hpc : s.thread () = some pc) :
    ∃ n s', (machine I g p).replay s (List.replicate n (.run () false)) = some s' ∧
      s'.thread () = none := by
  have hrun : ∀ (u : State Unit I) pc, u.thread () = some pc → step u (.run () false) =
      some (afterRun u () pc (u.queue.step false u.next pc)) := by
    intro u pc hu
    simp only [step, Conservation.step, hu]
  refine (h.running pc hpc).replay (M := machine I g p)
    (R := fun u m pc => u.thread () = some pc ∧ (u.queue, u.next) = m) ?_ ?_ ⟨hpc, rfl⟩
  · rintro u m pc m' pc' ⟨hu, rfl⟩ hstep
    obtain ⟨rfl, hgoto⟩ := program_goto hstep
    refine ⟨_, hrun u pc hu, ?_, rfl⟩
    simp [afterRun, hgoto]
  · rintro u m pc m' r ⟨hu, rfl⟩ hstep
    obtain ⟨-, hret⟩ := program_ret hstep
    exact ⟨_, hrun u pc hu, by simp [afterRun, hret]⟩

end Sequential

end Alterstack
