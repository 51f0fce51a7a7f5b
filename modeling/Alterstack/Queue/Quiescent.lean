/-
  Alterstack.Queue.Quiescent — `LockFreeQueue` after its threads have come to
  rest.

  Any number of threads have called `put_item` and `get_item` in any order, and
  at some time no call is in progress.  From then on, as long as calls do not
  overlap, they take effect one after another on a bag that holds exactly the
  items put and not returned, whatever the run before has made of the slots,
  the stacks and the positions.

  Main results:
    * `Quiescent.bag_from_rest` — the calls after the rest are those of a bag;
    * `Quiescent.drains_at_rest` — calls of `get_item` until one returns null
      get every queued item, each once, and such a loop comes to its end.
-/
import Mathlib.Algebra.BigOperators.Fin
import Alterstack.Queue.Bag

namespace Alterstack

namespace Quiescent

open Lib Queue LockFreeQueue
open Conservation (Event Holder State Label Inv holder isPut afterRun returnEvent)
open Progress (queuedItems mem_queuedItems)
open Alterstack.Sequential (Sim)
open Bag (bag results NoPut Holding)

variable {τ I : Type*} [DecidableEq τ] [DecidableEq I]

/-! ## §1. The contents at rest. -/

/-- The store of the lists at these positions. -/
def storeOf (g p : UInt32) (S : Cell → List I) : Store I where
  itemBuffer := ⟨BoundBuffer.slot g, BoundBuffer.slot p, fun i => S (.slot i)⟩
  prioQueue := fun i => S (.stack i)

omit [DecidableEq I] in
theorem storeOf_items (g p : UInt32) (S : Cell → List I) :
    (storeOf g p S).items = (Cell.all.flatMap S : Multiset I) := by
  have hall : Cell.all = [.slot 0, .slot 1, .slot 2, .slot 3, .stack 0, .stack 1, .stack 2] := rfl
  have hslots : ∑ i, (S (.slot i) : Multiset I) =
      (S (.slot 0) ++ S (.slot 1) ++ S (.slot 2) ++ S (.slot 3) : List I) := by
    show ∑ i : Fin 4, (S (.slot i) : Multiset I) = _
    simp [Fin.sum_univ_four]
  have hstacks : ∑ i, (S (.stack i) : Multiset I) =
      (S (.stack 0) ++ S (.stack 1) ++ S (.stack 2) : List I) := by
    show ∑ i : Fin 3, (S (.stack i) : Multiset I) = _
    simp [Fin.sum_univ_three]
  show ∑ i, (S (.slot i) : Multiset I) + ∑ i, (S (.stack i) : Multiset I) = _
  rw [hslots, hstacks, hall, Multiset.coe_add]
  simp [List.flatMap_cons]

/-- The queue at rest holds a store of the queued items. -/
theorem holds_at_rest {s : State τ I} (h : (Conservation.machine τ I).Reachable s)
    (hrest : ∀ t, s.thread t = none) :
    ∃ A : Store I, Holds s.queue s.next A [] ∧ ∀ x, x ∈ A.items ↔ holder s.log x = .queued := by
  obtain ⟨L, hinv⟩ := Conservation.inv_reachable h
  have hown : ∀ t, L.at_ (.own t) = [] := by
    intro t
    have := hinv.threads t
    rwa [hrest t] at this
  refine ⟨storeOf s.queue.itemBuffer.getPosition s.queue.itemBuffer.putPosition
    (fun c => L.at_ (.cell c)), ⟨rfl, rfl, fun i => hinv.cells (.slot i),
    fun i => hinv.cells (.stack i), ?_⟩, fun x => ?_⟩
  · rw [storeOf_items, Multiset.coe_nil, add_zero, Multiset.coe_nodup]
    have hplaces : (Cell.all.map (Conservation.Place.cell (τ := τ))).Nodup :=
      Cell.nodup_all.map (fun _ _ h => by injection h)
    have := L.flatMap_nodup hplaces
    rwa [List.flatMap_map] at this
  · rw [storeOf_items, Multiset.mem_coe, List.mem_flatMap, ← hinv.queued x]
    constructor
    · rintro ⟨c, -, hc⟩
      exact ⟨.cell c, hc⟩
    · rintro ⟨c | t, hp⟩
      · exact ⟨c, c.mem_all, hp⟩
      · rw [hown t] at hp
        cases hp

/-! ## §2. Calls that do not overlap. -/

/-- The event without its thread. -/
def forget : Event τ I → Event Unit I
  | .put _ x prio => .put () x prio
  | .stored _ => .stored ()
  | .got _ item haveMore => .got () item haveMore
  | .wrote x v => .wrote x v

omit [DecidableEq τ] in
theorem holder_forget (log : List (Event τ I)) (x : I) :
    holder (log.map forget) x =
      match holder log x with
      | .fresh => .fresh
      | .queued => .queued
      | .returned _ => .returned () := by
  induction log with
  | nil => rfl
  | cons e log ih =>
      cases e with
      | put t y prio =>
          by_cases hxy : x = y
          · simp [forget, holder, hxy]
          · simpa [forget, holder, hxy] using ih
      | stored t => exact ih
      | got t item more =>
          by_cases hx : x ∈ item
          · simp [forget, holder, hx]
          · simpa [forget, holder, hx] using ih
      | wrote y v => exact ih

omit [DecidableEq τ] in
theorem queued_forget (log : List (Event τ I)) (x : I) :
    holder (log.map forget) x = .queued ↔ holder log x = .queued := by
  rw [holder_forget]
  cases holder log x <;> simp

/-- A call begins, or a link is written outside the queue, only while no call is
in progress. -/
def OneAtATime (s : State τ I) : Label τ I → Prop
  | .run _ _ => True
  | _ => ∀ t, s.thread t = none

/-- `u` is the state without the names of the threads. -/
structure Matches (s : State τ I) (u : State Unit I) : Prop where
  queue : u.queue = s.queue
  next : u.next = s.next
  log : u.log = s.log.map forget
  rest : u.thread () = none ↔ ∀ t, s.thread t = none
  alone : ∀ t pc, s.thread t = some pc →
    u.thread () = some pc ∧ ∀ t', t' ≠ t → s.thread t' = none

variable {s s' : State τ I} {u : State Unit I}

section Call

variable {q : LockFreeQueue I} {next : I → Option I} {thread : τ → Option (Pc I)}
  {thread' : Unit → Option (Pc I)} {log : List (Event τ I)} {log' : List (Event Unit I)} {t : τ}

omit [DecidableEq I] in
/-- A call begins, or goes on to another point. -/
theorem matches_goto (hothers : ∀ t', t' ≠ t → thread t' = none) (pc : Pc I)
    (hlog : log' = log.map forget) :
    Matches ⟨q, next, Function.update thread t (some pc), log⟩
      ⟨q, next, Function.update thread' () (some pc), log'⟩ := by
  refine ⟨rfl, rfl, hlog, ⟨fun hnone => ?_, fun hrest => ?_⟩, fun t' pc' ht' => ?_⟩
  · simp at hnone
  · have := hrest t
    simp at this
  · by_cases htt : t' = t
    · subst htt
      simp only [Function.update_self, Option.some.injEq] at ht'
      subst ht'
      exact ⟨by simp, fun t'' ht'' => by simp [ht'', hothers t'' ht'']⟩
    · simp [htt, hothers t' htt] at ht'

omit [DecidableEq I] in
/-- A call returns. -/
theorem matches_ret (hothers : ∀ t', t' ≠ t → thread t' = none) (hlog : log' = log.map forget) :
    Matches ⟨q, next, Function.update thread t none, log⟩
      ⟨q, next, Function.update thread' () none, log'⟩ := by
  have hrest : ∀ t', Function.update thread t none t' = none := by
    intro t'
    by_cases htt : t' = t
    · simp [htt]
    · simp [htt, hothers t' htt]
  refine ⟨rfl, rfl, hlog, ⟨fun _ => hrest, fun _ => by simp⟩, fun t' pc ht' => ?_⟩
  have hnone := hrest t'
  rw [show Function.update thread t none t' = some pc from ht'] at hnone
  cases hnone

end Call

/-- **The thread's name does not matter.** -/
theorem matches_step (h : Matches s u) {l : Label τ I} (hok : OneAtATime s l)
    (hstep : Conservation.step s l = some s') :
    ∃ k u', Sequential.step u k = some u' ∧ Matches s' u' := by
  obtain ⟨q, next, thread, log⟩ := u
  obtain ⟨rfl, rfl, rfl, hrest, halone⟩ := h
  cases l with
  | putItem t x prio =>
      obtain ⟨-, hout, hnull, rfl⟩ := Conservation.step_putItem hstep
      have hout' : holder (s.log.map forget) x = .fresh ∨
          holder (s.log.map forget) x = .returned () := by
        rw [holder_forget]
        rcases hout with ho | ho <;> simp [ho]
      exact ⟨.putItem () x prio, _, if_pos ⟨hrest.mpr hok, hout', hnull⟩,
        matches_goto (fun t' _ => hok t') _ rfl⟩
  | getItem t =>
      obtain ⟨-, rfl⟩ := Conservation.step_getItem hstep
      exact ⟨.getItem (), _, if_pos (hrest.mpr hok), matches_goto (fun t' _ => hok t') _ rfl⟩
  | run t spurious =>
      obtain ⟨pc, hpc, rfl⟩ := Conservation.step_run hstep
      obtain ⟨hu, hothers⟩ := halone t pc hpc
      refine ⟨.run () spurious, afterRun ⟨s.queue, s.next, thread, s.log.map forget⟩ () pc
        (s.queue.step spurious s.next pc), ?_, ?_⟩
      · have hthread : thread () = some pc := hu
        simp only [Sequential.step, Conservation.step, hthread]
      · cases hr : (s.queue.step spurious s.next pc).2.2 with
        | goto pc' =>
            simp only [afterRun, hr]
            exact matches_goto hothers pc' rfl
        | ret item more =>
            simp only [afterRun, hr]
            refine matches_ret hothers ?_
            simp only [List.map_cons, returnEvent]
            split <;> rfl
  | setNext x v =>
      obtain ⟨hout, rfl⟩ := Conservation.step_setNext hstep
      have hout' : holder (s.log.map forget) x ≠ .queued := by rwa [Ne, queued_forget]
      exact ⟨.setNext x v, _, (if_pos (hrest.mpr hok)).trans (if_pos hout'), rfl, rfl, rfl,
        hrest, halone⟩

/-! ## §3. A bag. -/

/-- The state has the contents `S`. -/
def Contents (s : State τ I) (S : Finset I) : Prop :=
  ∃ u A, Matches s u ∧ Holding A S ∧ Sim u A

theorem contents_at_rest (h : (Conservation.machine τ I).Reachable s)
    (hrest : ∀ t, s.thread t = none) : Contents s (queuedItems s.log) := by
  obtain ⟨A, hA, hitems⟩ := holds_at_rest h hrest
  have hnodup : A.items.Nodup := by
    have := hA.nodup
    rwa [Multiset.coe_nil, add_zero] at this
  refine ⟨⟨s.queue, s.next, fun _ => none, s.log.map forget⟩, A, ⟨rfl, rfl, rfl,
    ⟨fun _ => hrest, fun _ => rfl⟩, fun t pc ht => ?_⟩, ?_, ⟨hnodup, fun x => ?_, fun _ => hA,
    fun pc hpc => ?_⟩⟩
  · rw [hrest t] at ht
    cases ht
  · refine (Multiset.Nodup.ext hnodup (queuedItems s.log).nodup).mpr fun x => ?_
    rw [hitems x, Finset.mem_val, mem_queuedItems]
  · rw [hitems x, queued_forget]
  · cases hpc

omit [DecidableEq τ] in
theorem Contents.mem {S : Finset I} (h : Contents s S) (x : I) :
    x ∈ S ↔ holder s.log x = .queued := by
  obtain ⟨u, A, hu, hA, hsim⟩ := h
  rw [← queued_forget, ← hu.log, ← hsim.holder x, hA, Finset.mem_val]

theorem contents_step {S : Finset I} (h : Contents s S) {l : Label τ I} (hok : OneAtATime s l)
    (hstep : Conservation.step s l = some s') :
    (s'.log.map forget = s.log.map forget ∧ Contents s' S) ∨
      ∃ e T, s'.log.map forget = e :: s.log.map forget ∧ (bag I).step S e T ∧ Contents s' T := by
  obtain ⟨u, A, hu, hA, hsim⟩ := h
  obtain ⟨k, u', hk, hu'⟩ := matches_step hu hok hstep
  rw [← hu.log, ← hu'.log]
  rcases Sequential.sim_step hsim hk with ⟨hlog, hsim'⟩ | ⟨e, B, hlog, hB, hsim'⟩
  · exact .inl ⟨hlog, u', A, hu', hA, hsim'⟩
  · obtain ⟨T, hT, hholding⟩ := Bag.holding_step hA hB
    exact .inr ⟨e, T, hlog, hT, u', B, hu', hholding, hsim'⟩

/-- A run adds events to the log. -/
theorem log_run {ok : State τ I → Label τ I → Prop}
    (h : (Conservation.machine τ I).Run ok s s') : ∃ evs, s'.log = evs ++ s.log := by
  refine h.preserves (I := fun v => ∃ evs, v.log = evs ++ s.log) ?_ ⟨[], rfl⟩
  rintro v l w ⟨evs, hv⟩ - hstep
  rcases Conservation.step_log hstep with hw | ⟨e, hw⟩
  · exact ⟨evs, hw.trans hv⟩
  · exact ⟨e :: evs, by rw [hw, hv]; rfl⟩

/-- The calls of a run take effect on the contents. -/
theorem contents_run {S : Finset I} (h : Contents s S)
    (hrun : (Conservation.machine τ I).Run OneAtATime s s') :
    ∃ evs T, s'.log = evs ++ s.log ∧ ((bag I).startingAt S).Legal (evs.map forget) T ∧
      Contents s' T := by
  obtain ⟨evs, hlog⟩ := log_run hrun
  obtain ⟨evs', T, hforget, hlegal, hT⟩ :=
    Machine.Run.legal (O := bag I) (L := fun v : State τ I => v.log.map forget) (R := Contents)
      (fun _ _ _ _ hv hok hstep => contents_step hv hok hstep) hrun h
  rw [hlog, List.map_append] at hforget
  rw [← List.append_cancel_right hforget] at hlegal
  exact ⟨evs, T, hlog, hlegal, hT⟩

/-- **After a rest the queue is a bag.**  Let the threads of any concurrent run
come to rest.  Calls that do not overlap then take effect one after another on
a bag that holds exactly the items put and not returned. -/
theorem bag_from_rest (h : (Conservation.machine τ I).Reachable s)
    (hrest : ∀ t, s.thread t = none) (hrun : (Conservation.machine τ I).Run OneAtATime s s') :
    ∃ evs S, s'.log = evs ++ s.log ∧
      ((bag I).startingAt (queuedItems s.log)).Legal (evs.map forget) S ∧
      ∀ x, x ∈ S ↔ holder s'.log x = .queued := by
  obtain ⟨evs, S, hlog, hlegal, hS⟩ := contents_run (contents_at_rest h hrest) hrun
  exact ⟨evs, S, hlog, hlegal, hS.mem⟩

/-! ## §4. Calls of `get_item`. -/

/-- Calls that do not overlap, none of them of `put_item`. -/
def OnlyGets (s : State τ I) : Label τ I → Prop
  | .putItem _ _ _ => False
  | l => OneAtATime s l

omit [DecidableEq τ] [DecidableEq I] in
theorem OnlyGets.oneAtATime {l : Label τ I} (h : OnlyGets s l) : OneAtATime s l := by
  cases l with
  | putItem t x prio => exact h.elim
  | _ => exact h

theorem noPut_run {evs : List (Event τ I)} (hrun : (Conservation.machine τ I).Run OnlyGets s s')
    (hlog : s'.log = evs ++ s.log) : NoPut (evs.map forget) := by
  have key : ∃ new, s'.log = new ++ s.log ∧ NoPut (new.map forget) := by
    refine hrun.preserves (I := fun v => ∃ new, v.log = new ++ s.log ∧ NoPut (new.map forget))
      ?_ ⟨[], rfl, trivial⟩
    rintro v l w ⟨new, hv, hno⟩ hl hstep
    cases l with
    | putItem t x prio => exact hl.elim
    | getItem t =>
        obtain ⟨-, rfl⟩ := Conservation.step_getItem hstep
        exact ⟨new, hv, hno⟩
    | run t spurious =>
        obtain ⟨pc, -, rfl⟩ := Conservation.step_run hstep
        cases hr : (v.queue.step spurious v.next pc).2.2 with
        | goto pc' => exact ⟨new, by simpa only [afterRun, hr] using hv, hno⟩
        | ret item more =>
            refine ⟨returnEvent t pc item more :: new, by simp [afterRun, hr, hv], ?_⟩
            show NoPut (forget (returnEvent t pc item more) :: new.map forget)
            unfold returnEvent
            split <;> exact hno
    | setNext x v' =>
        obtain ⟨-, rfl⟩ := Conservation.step_setNext hstep
        exact ⟨.wrote x v' :: new, by simp [hv], hno⟩
  obtain ⟨new, hnew, hno⟩ := key
  obtain rfl : evs = new := List.append_cancel_right (hlog.symm.trans hnew)
  exact hno

omit [DecidableEq τ] in
/-- Every bag is the outcome of some calls. -/
theorem exists_legal (S : Finset I) : ∃ log, (bag I).Legal log S := by
  induction S using Finset.induction with
  | empty => exact ⟨[], .nil⟩
  | insert x S hx ih =>
      obtain ⟨log, hlog⟩ := ih
      exact ⟨.put () x 0 :: log, .cons hlog (.put () 0 hx)⟩

/-- What the events `evs` since `s` have returned: distinct items of the queue,
all of them when a call has returned null. -/
structure Takes (s : State τ I) (evs : List (Event τ I)) : Prop where
  nodup : (results (evs.map forget)).reduceOption.Nodup
  queued : ∀ x ∈ (results (evs.map forget)).reduceOption, holder s.log x = .queued
  all : none ∈ results (evs.map forget) →
    ∀ x, holder s.log x = .queued → x ∈ (results (evs.map forget)).reduceOption

theorem takes_run (h : (Conservation.machine τ I).Reachable s) (hrest : ∀ t, s.thread t = none)
    (hrun : (Conservation.machine τ I).Run OnlyGets s s') :
    ∃ evs, s'.log = evs ++ s.log ∧ Takes s evs := by
  obtain ⟨evs, T, hlog, hlegal, -⟩ :=
    contents_run (contents_at_rest h hrest) (hrun.imp fun _ _ hl => hl.oneAtATime)
  obtain ⟨log, hput⟩ := exists_legal (queuedItems s.log)
  have hd := Bag.drained (hput.append hlegal) (noPut_run hrun hlog)
  have hsplit : ∀ x, holder s.log x = .queued ↔
      x ∈ (results (evs.map forget)).reduceOption ∨ x ∈ T := by
    intro x
    rw [← hd.split x, ← Bag.legal_queuedItems hput, mem_queuedItems]
  refine ⟨evs, hlog, hd.nodup, fun x hx => (hsplit x).mpr (.inl hx), fun hnull x hx => ?_⟩
  -- a null result makes the returned items fewer than the results
  have hlt := List.reduceOption_length_lt_iff.mpr hnull
  have hT : T = ∅ := by
    rcases hd.full with hfull | hT
    · omega
    · exact hT
  rcases (hsplit x).mp hx with hmem | hmem
  · exact hmem
  · rw [hT] at hmem
    exact absurd hmem (Finset.notMem_empty x)

/-! ## §5. Draining. -/

/-- The thread calls `get_item` at rest, or runs without a spurious failure. -/
def Gets (t : τ) (s : State τ I) : Label τ I → Prop
  | .getItem t' => t' = t ∧ ∀ u, s.thread u = none
  | .run t' spurious => t' = t ∧ spurious = false
  | _ => False

omit [DecidableEq τ] [DecidableEq I] in
theorem Gets.oneAtATime {t : τ} {l : Label τ I} (h : Gets t s l) : OneAtATime s l := by
  cases l with
  | getItem t' => exact h.2
  | run t' spurious => trivial
  | _ => exact h.elim

/-- A thread calls `get_item` at rest and runs until it returns. -/
theorem get_at_rest (h : (Conservation.machine τ I).Reachable s) (hrest : ∀ t, s.thread t = none)
    (t : τ) : ∃ s' item more, (Conservation.machine τ I).Run (Gets t) s s' ∧
      (∀ t', s'.thread t' = none) ∧ s'.log = .got t item more :: s.log := by
  obtain ⟨A, hA, -⟩ := holds_at_rest h hrest
  set called := fun pc : Pc I => Function.update s.thread t (some pc) with hcalled
  have hcall : Conservation.step s (.getItem t) = some { s with thread := called getItem } :=
    if_pos (hrest t)
  have hrun : ∀ (v : State τ I) pc, v.thread = called pc →
      Conservation.step v (.run t false) =
        some (afterRun v t pc (v.queue.step false v.next pc)) := by
    intro v pc hv
    have hpc : v.thread t = some pc := by simp [hv, hcalled]
    simp only [Conservation.step, hpc]
  obtain ⟨n, s', hreplay, hidle, item, more, hlog⟩ :=
    (getItem_returns hA).replay (M := Conservation.machine τ I) (l := .run t false)
      (R := fun v m pc => v.thread = called pc ∧ (v.queue, v.next) = m ∧ v.log = s.log ∧
        isPut pc = false)
      (D := fun v => (∀ t', v.thread t' = none) ∧ ∃ item more, v.log = .got t item more :: s.log)
      (by
        rintro v m pc m' pc' ⟨hv, rfl, hlog, hget⟩ hstep
        obtain ⟨rfl, hgoto⟩ := program_goto hstep
        refine ⟨_, hrun v pc hv, ?_, rfl, ?_, (Sequential.isPut_goto hgoto).trans hget⟩
        · simp [afterRun, hgoto, hv, hcalled]
        · simpa [afterRun, hgoto] using hlog)
      (by
        rintro v m pc m' r ⟨hv, rfl, hlog, hget⟩ hstep
        obtain ⟨-, hret⟩ := program_ret hstep
        refine ⟨_, hrun v pc hv, fun t' => ?_, r.1, r.2, ?_⟩
        · by_cases ht : t' = t
          · simp [afterRun, hret, ht]
          · simp [afterRun, hret, hv, hcalled, ht, hrest t']
        · simp [afterRun, hret, returnEvent, hget, hlog])
      (u := { s with thread := called getItem }) ⟨rfl, rfl, rfl, rfl⟩
  have hruns : (Conservation.machine τ I).Run (Gets t) { s with thread := called getItem } s' := by
    refine Machine.run_of_replay _ (fun l hl v => ?_) hreplay
    obtain rfl := List.eq_of_mem_replicate hl
    exact ⟨rfl, rfl⟩
  have hbegins : Gets t s (.getItem t) := ⟨rfl, hrest⟩
  have hfirst : (Conservation.machine τ I).Run (Gets t) s _ := .single hbegins hcall
  exact ⟨s', item, more, hfirst.trans hruns, hidle, hlog⟩

/-- The call is one of a bag of the queued items. -/
theorem bag_get (h : (Conservation.machine τ I).Reachable s) (hrest : ∀ t, s.thread t = none)
    {t : τ} {item : Option I} {more : Bool} (hrun : (Conservation.machine τ I).Run (Gets t) s s')
    (hlog : s'.log = .got t item more :: s.log) :
    Bag.BagStep (queuedItems s.log) (.got () item more) (queuedItems s'.log) := by
  obtain ⟨evs, T, hevs, hlegal, hT⟩ :=
    contents_run (contents_at_rest h hrest) (hrun.imp fun _ _ hl => hl.oneAtATime)
  obtain rfl : evs = [.got t item more] := List.append_cancel_right (hevs.symm.trans hlog)
  obtain ⟨S, hS, hstep⟩ := Object.legal_cons.mp hlegal
  obtain rfl := Object.legal_nil.mp hS
  obtain rfl : T = queuedItems s'.log := Finset.ext fun x => by rw [mem_queuedItems, hT.mem x]
  exact hstep

/-- An item outside the queue stays outside, and its link as it is, while a
thread only calls `get_item`. -/
theorem outside_step {t : τ} {l : Label τ I} (hl : Gets t s l) (hinv : ∃ L, Inv s L) {x : I}
    (hx : holder s.log x ≠ .queued) (hstep : Conservation.step s l = some s') :
    s'.next x = s.next x ∧ holder s'.log x ≠ .queued := by
  obtain ⟨L, hinv⟩ := hinv
  cases l with
  | getItem t' =>
      obtain ⟨-, rfl⟩ := Conservation.step_getItem hstep
      exact ⟨rfl, hx⟩
  | run t' spurious =>
      obtain ⟨pc, hpc, rfl⟩ := Conservation.step_run hstep
      have howns : pc.Owns s.next (L.at_ (.own t')) := by
        have := hinv.threads t'
        rwa [hpc] at this
      obtain ⟨j, l₁, l₂, -, -, hperm, hwrites, -⟩ := step_trade spurious (hinv.toLocal t') howns
      -- the step writes the links of queued items only
      have hnot : x ∉ l₂ := by
        intro hmem
        rcases List.mem_append.mp (hperm.subset (List.mem_append_right l₁ hmem)) with hm | hm
        · exact hx ((hinv.queued x).mp ⟨_, hm⟩)
        · exact hx ((hinv.queued x).mp ⟨_, hm⟩)
      refine ⟨hwrites x hnot, ?_⟩
      cases hr : (s.queue.step spurious s.next pc).2.2 with
      | goto pc' => simpa only [afterRun, hr] using hx
      | ret item more =>
          simp only [afterRun, hr, Conservation.holder_returnEvent hr]
          split
          · simp
          · exact hx
  | _ => exact hl.elim

theorem outside_run {t : τ} (h : (Conservation.machine τ I).Reachable s) {x : I}
    (hx : holder s.log x ≠ .queued) (hrun : (Conservation.machine τ I).Run (Gets t) s s') :
    s'.next x = s.next x := by
  refine (hrun.preserves (I := fun v => (∃ L, Inv v L) ∧ v.next x = s.next x ∧
    holder v.log x ≠ .queued) ?_ ⟨Conservation.inv_reachable h, rfl, hx⟩).2.1
  rintro v l w ⟨hinv, hnext, hv⟩ hl hstep
  obtain ⟨hnext', hw⟩ := outside_step hl hinv hv hstep
  exact ⟨Conservation.inv_step hinv hstep, hnext'.trans hnext, hw⟩

omit [DecidableEq I] in
theorem results_append (evs log : List (Event Unit I)) :
    results (evs ++ log) = results evs ++ results log := by
  induction evs with
  | nil => rfl
  | cons e evs ih => cases e <;> simp [results, ih]

/-- What the loop has done: its results, newest first, are null and the items
`items`; these were the queued ones, and all are unlinked. -/
structure Drains (t : τ) (s s' : State τ I) (items : List I) : Prop where
  run : (Conservation.machine τ I).Run (Gets t) s s'
  results : ∃ evs, s'.log = evs ++ s.log ∧ results (evs.map forget) = none :: items.map some
  nodup : items.Nodup
  all : ∀ x, x ∈ items ↔ holder s.log x = .queued
  unlinked : ∀ x ∈ items, s'.next x = none

/-- A call before the loop. -/
theorem Drains.before {t : τ} {x : I} {more : Bool} {s₁ : State τ I} {items : List I}
    (hrun : (Conservation.machine τ I).Run (Gets t) s s₁)
    (hlog : s₁.log = .got t (some x) more :: s.log)
    (hreach : (Conservation.machine τ I).Reachable s₁) (hx : holder s.log x = .queued)
    (hd : Drains t s₁ s' items) : Drains t s s' (items ++ [x]) := by
  obtain ⟨evs, hevs, hresults⟩ := hd.results
  have hout : holder s₁.log x ≠ .queued := by simp [hlog, holder]
  have hleft : ∀ y, y ∈ items ↔ y ≠ x ∧ holder s.log y = .queued := by
    intro y
    rw [hd.all y, hlog]
    by_cases hyx : y = x
    · simp [holder, hyx]
    · simp [holder, hyx, Ne.symm hyx]
  refine ⟨hrun.trans hd.run, ⟨evs ++ [.got t (some x) more], ?_, ?_⟩, ?_, fun y => ?_,
    fun y hy => ?_⟩
  · rw [hevs, hlog, List.append_assoc]
    rfl
  · rw [List.map_append, results_append, hresults, List.map_append]
    rfl
  · refine List.nodup_append.mpr ⟨hd.nodup, List.nodup_singleton x, fun y hy z hz => ?_⟩
    obtain rfl := List.mem_singleton.mp hz
    exact ((hleft y).mp hy).1
  · rw [List.mem_append, List.mem_singleton, hleft y]
    by_cases hyx : y = x
    · simp [hyx, hx]
    · simp [hyx]
  · rcases List.mem_append.mp hy with hy | hy
    · exact hd.unlinked y hy
    · -- unlinked when it is returned, and not touched since
      obtain rfl := List.mem_singleton.mp hy
      obtain ⟨L, hinv⟩ := Conservation.inv_reachable hreach
      rw [outside_run hreach hout hd.run]
      exact hinv.unlinked t y more s.log hlog

/-- The loop comes to its end. -/
theorem exists_drains (h : (Conservation.machine τ I).Reachable s)
    (hrest : ∀ t, s.thread t = none) (t : τ) : ∃ s' items, Drains t s s' items := by
  -- induction on the number of queued items
  induction hcard : (queuedItems s.log).card using Nat.strong_induction_on generalizing s with
  | _ k ih =>
      obtain ⟨s₁, item, more, hrun, hidle, hlog⟩ := get_at_rest h hrest t
      have hreach : (Conservation.machine τ I).Reachable s₁ :=
        h.run (hrun.imp fun _ _ _ => trivial)
      have hbag := bag_get h hrest hrun hlog
      generalize hS : queuedItems s.log = S at hbag
      generalize hT : queuedItems s₁.log = T at hbag
      cases hbag with
      -- null is returned only when nothing is queued
      | gotNone =>
          refine ⟨s₁, [], hrun, ⟨[.got t none false], hlog, rfl⟩, .nil, fun x => ?_,
            fun x hx => by cases hx⟩
          rw [← mem_queuedItems, hS]
          simp
      | @gotSome _ x _ _ hx =>
          have hlt : (queuedItems s₁.log).card < k := by
            rw [hT, ← hcard, hS]
            exact Finset.card_erase_lt_of_mem hx
          obtain ⟨s', items, hd⟩ := ih _ hlt hreach hidle rfl
          exact ⟨s', items ++ [x], hd.before hrun hlog hreach (mem_queuedItems.mp (hS ▸ hx))⟩

/-- **Draining after a rest.**  Let the threads of any concurrent run come to
rest.  Calls of `get_item` that do not overlap return distinct items of the
queue, and all of them before one returns null; a thread that calls `get_item`
until it returns null comes to the end of this loop, and each item is then
unlinked. -/
theorem drains_at_rest (h : (Conservation.machine τ I).Reachable s)
    (hrest : ∀ t, s.thread t = none) :
    (∀ s', (Conservation.machine τ I).Run OnlyGets s s' →
      ∃ evs, s'.log = evs ++ s.log ∧ Takes s evs) ∧
      ∀ t, ∃ s' items, Drains t s s' items :=
  ⟨fun _ hrun => takes_run h hrest hrun, exists_drains h hrest⟩

/-- Both threads push an item on the same stack at the same time; the second
compare-exchange has to be tried again. -/
def pushesAtOnce : List (Label Bool Bool) :=
  [.putItem false false 1, .putItem true true 1, .run false false, .run true false,
   .run false false, .run true false, .run true false]

theorem exists_pushesAtOnce : ∃ s : State Bool Bool, (Conservation.machine Bool Bool).Reachable s ∧
    (∀ t, s.thread t = none) ∧ holder s.log false = .queued ∧ holder s.log true = .queued := by
  obtain ⟨s, hs, hp⟩ := Machine.exists_reach_of_replay (Conservation.machine Bool Bool) pushesAtOnce
    (fun s => (∀ t, s.thread t = none) ∧ holder s.log false = .queued ∧
      holder s.log true = .queued) rfl (by decide)
  exact ⟨s, hs, of_decide_eq_true hp⟩

theorem bag_from_rest_pushesAtOnce : ∃ (s s' : State Bool Bool) (item : Option Bool) (more : Bool)
    (S : Finset Bool), s'.log = .got false item more :: s.log ∧ holder s.log true = .queued ∧
      ((bag Bool).startingAt (queuedItems s.log)).Legal [.got () item more] S ∧
      ∀ x, x ∈ S ↔ holder s'.log x = .queued := by
  obtain ⟨s, hs, hrest, -, hqueued⟩ := exists_pushesAtOnce
  obtain ⟨s', item, more, hrun, -, hlog⟩ := get_at_rest hs hrest false
  obtain ⟨evs, S, hevs, hlegal, hS⟩ := bag_from_rest hs hrest (hrun.imp fun _ _ hl => hl.oneAtATime)
  obtain rfl : evs = [.got false item more] := List.append_cancel_right (hevs.symm.trans hlog)
  exact ⟨s, s', item, more, S, hlog, hqueued, hlegal, hS⟩

theorem drains_at_rest_pushesAtOnce : ∃ (s s' : State Bool Bool) (items : List Bool),
    holder s.log false = .queued ∧ holder s.log true = .queued ∧ Drains true s s' items := by
  obtain ⟨s, hs, hrest, hfalse, htrue⟩ := exists_pushesAtOnce
  obtain ⟨s', items, hd⟩ := (drains_at_rest hs hrest).2 true
  exact ⟨s, s', items, hfalse, htrue, hd⟩

end Quiescent

end Alterstack
