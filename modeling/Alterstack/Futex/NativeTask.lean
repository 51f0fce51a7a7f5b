/-
  Alterstack.Futex.NativeTask — a released native task does not sleep.

  One OS thread, whose native task waits on any sequence of awaitables through
  the loop of `do_schedule`; any number of releasers, each of which stores
  `Running` to its `m_state` and then calls `BoundTask::notify`; and any number
  of other notifications of its `native_futex`, left over from earlier waits or
  not.  One atomic access at a time.  The words of the awaitables are whatever
  the other threads make of them, and while another task runs on the thread the
  native task may be switched back to at any time.

  Main results:
    * `NativeTask.inv_step` — while `m_state` is `Running`, the futex guarantees
      that the thread is awake or a releaser is about to wake it;
    * `NativeTask.never_left_asleep` — no reachable state has the task released,
      its thread inside `FUTEX_WAIT` and every releaser done.
-/
import Alterstack.Lib.Machine
import Alterstack.Awaitable.Code
import Alterstack.Futex.Code

namespace Alterstack

namespace NativeTask

open Lib Futex
open Awaitable (InsertPc insertStep)

/-! ## §1. The machine. -/

/-- The control points of the thread: the code of the program, inside
`insert_current_task_in_waitlist`, in `do_schedule` at the look for a next task
and at the two reads of `m_state`, inside `native_futex.wait()`, and suspended
in `switch_to` while another task runs on the thread. -/
inductive Pc (N : Type*) where
  | user
  | insert (pc : InsertPc N)
  | nextTask
  | running
  | waiting
  | futex (pc : WaitPc)
  | suspended
  deriving DecidableEq

/-- `releaser r` is where the releaser stands in `BoundTask::notify()`, `none`
before its store; `other k` is an unrelated notification. -/
structure State (N R K : Type*) where
  mState : TaskState
  nativeFutex : Futex
  pc : Pc N
  releaser : R → Option NotifyPc
  other : K → Option NotifyPc

/-- The thread enters `wait` or `schedule`, performs an access of the insertion
(the word holds `data`), finds a next task or none, performs its next access, or
is switched back to; a releaser stores `Running`, another notification starts,
and both go on in `notify()`. -/
inductive Label (N R K : Type*) where
  | wait
  | schedule
  | insert (spurious : Bool) (data : AwaitableData N)
  | nextTask (found : Bool)
  | run
  | resume
  | release (r : R)
  | releaseNotify (r : R)
  | notify (k : K)
  | otherNotify (k : K)

variable {N R K : Type*}

/-- On to another point of `native_futex.wait()`, or back in the loop. -/
def afterWait : Option WaitPc → Pc N
  | some pc => .futex pc
  | none => .nextTask

/-- What a `FUTEX_WAKE` does to the thread. -/
def wake : Pc N → Pc N
  | .futex .blocked => .futex .subCounter
  | pc => pc

/-- The thread after a `FUTEX_WAKE`, or after another access of `notify()`. -/
def afterNotify (pc : Pc N) : NotifyPc → Pc N
  | .futexWake => wake pc
  | _ => pc

variable [DecidableEq N] [DecidableEq R] [DecidableEq K]

/-- The insertion, as far as `m_state` goes. -/
def insertion (s : State N R K) (current : N) (spurious : Bool) (data : AwaitableData N)
    (pc : InsertPc N) : State N R K :=
  let r := insertStep current spurious data { state := s.mState } pc
  { s with
    mState := r.2.1.state
    pc :=
      match r.2.2 with
      | .goto pc' => .insert pc'
      | .ret true => .nextTask
      | .ret false => .user }

/-- One step; `current` is the native task. -/
def step (current : N) (s : State N R K) : Label N R K → Option (State N R K)
  | .wait => if s.pc = .user then some { s with pc := .insert .load } else none
  | .schedule => if s.pc = .user then some { s with pc := .nextTask } else none
  | .insert spurious data =>
      match s.pc with
      | .insert pc => some (insertion s current spurious data pc)
      | _ => none
  | .nextTask found =>
      if s.pc = .nextTask then some { s with pc := if found then .suspended else .running }
      else none
  | .run =>
      match s.pc with
      | .running => some { s with pc := if s.mState = .running then .user else .waiting }
      | .waiting => some { s with pc := if s.mState = .waiting then .futex .load else .nextTask }
      | .futex pc =>
          (s.nativeFutex.waitStep pc).map fun r =>
            { s with nativeFutex := r.1, pc := afterWait r.2 }
      | _ => none
  | .resume => if s.pc = .suspended then some { s with pc := .user } else none
  | .release r =>
      if s.releaser r = none then
        some { s with
          mState := .running
          releaser := Function.update s.releaser r (some .load) }
      else none
  | .releaseNotify r =>
      match s.releaser r with
      | some pc =>
          some { s with
            nativeFutex := (s.nativeFutex.notifyStep pc).1
            pc := afterNotify s.pc pc
            releaser := Function.update s.releaser r (s.nativeFutex.notifyStep pc).2 }
      | none => none
  | .notify k =>
      if s.other k = none then
        some { s with other := Function.update s.other k (some .load) }
      else none
  | .otherNotify k =>
      match s.other k with
      | some pc =>
          some { s with
            nativeFutex := (s.nativeFutex.notifyStep pc).1
            pc := afterNotify s.pc pc
            other := Function.update s.other k (s.nativeFutex.notifyStep pc).2 }
      | none => none

/-- The native task of a new thread. -/
def initial : State N R K where
  mState := .running
  nativeFutex := {}
  pc := .user
  releaser := fun _ => none
  other := fun _ => none

def machine (N R K : Type*) [DecidableEq N] [DecidableEq R] [DecidableEq K] (current : N) :
    Machine (State N R K) (Label N R K) where
  init := fun s => s = initial
  step := step current

/-- Released, and left asleep. -/
def LeftAsleep (s : State N R K) : Prop :=
  s.mState = .running ∧ s.pc = .futex .blocked ∧ ∀ r, s.releaser r = none

/-! ## §2. The invariant. -/

/-- The thread as the only waiter of its futex. -/
def Pc.waiter : Pc N → Unit → Option WaitPc
  | .futex pc, _ => some pc
  | _, _ => none

structure Inv (s : State N R K) : Prop where
  counted : Counted s.nativeFutex s.pc.waiter
  wakes : s.mState = .running → Wakes s.nativeFutex s.pc.waiter s.releaser

variable {s s' : State N R K} {current : N}

omit [DecidableEq N] [DecidableEq R] [DecidableEq K] in
theorem inv_initial : Inv (initial : State N R K) where
  counted := by simp [Counted, counted, initial, Pc.waiter]
  wakes := fun _ => .of_looking (i := ()) rfl

omit [DecidableEq N] [DecidableEq R] [DecidableEq K] in
/-- A point outside the futex is reached from such a point. -/
theorem Inv.look (h : Inv s) {pc : Pc N} (hs : s.pc.waiter () = none) (hpc : pc.waiter () = none)
    (state : TaskState) : Inv { s with mState := state, pc := pc } := by
  refine ⟨?_, fun _ => .of_looking (i := ()) hpc⟩
  have hwaiter : pc.waiter = s.pc.waiter := by
    funext i
    rw [hs, hpc]
  show Counted s.nativeFutex pc.waiter
  rw [hwaiter]
  exact h.counted

omit [DecidableEq N] [DecidableEq R] [DecidableEq K] in
/-- An access of `native_futex.wait()`. -/
theorem Inv.wait (h : Inv s) {pc : WaitPc} (hs : s.pc = .futex pc) {r : Futex × Option WaitPc}
    (hr : s.nativeFutex.waitStep pc = some r) :
    Inv { s with nativeFutex := r.1, pc := (afterWait r.2 : Pc N) } := by
  have hpc : s.pc.waiter () = some pc := by
    rw [hs]
    rfl
  have hwaiter : (afterWait r.2 : Pc N).waiter = Function.update s.pc.waiter () r.2 := by
    funext i
    rw [Function.update_self]
    cases r.2 <;> rfl
  refine ⟨?_, fun hrun => ?_⟩
  · show Counted r.1 (afterWait r.2 : Pc N).waiter
    rw [hwaiter]
    exact h.counted.wait hpc hr
  · show Wakes r.1 (afterWait r.2 : Pc N).waiter s.releaser
    rw [hwaiter]
    exact (h.wakes hrun).wait hpc hr

/-- Whom a `FUTEX_WAKE` unblocks. -/
def woken (pc : Pc N) : Finset Unit := if pc = .futex .blocked then Finset.univ else ∅

omit [DecidableEq R] [DecidableEq K] in
theorem waiter_wake (pc : Pc N) : (wake pc).waiter = wakeUp pc.waiter (woken pc) := by
  funext i
  by_cases hpc : pc = .futex .blocked
  · subst hpc
    simp [wake, woken, wakeUp, Pc.waiter]
  · have hsame : wake pc = pc := by
      unfold wake
      split
      · exact absurd rfl hpc
      · rfl
    simp [hsame, woken, hpc, wakeUp]

omit [DecidableEq R] [DecidableEq K] in
/-- A `FUTEX_WAKE` leaves the counter alone, the other accesses of `notify()`
leave the thread where it is. -/
theorem Inv.counted_notify (h : Inv s) (pc : NotifyPc) :
    Counted (s.nativeFutex.notifyStep pc).1 (afterNotify s.pc pc).waiter := by
  have hcounted := h.counted
  cases pc with
  | load => exact hcounted
  | store => exact hcounted
  | loadCounter => exact hcounted
  | futexWake =>
      show Counted s.nativeFutex (wake s.pc).waiter
      rw [waiter_wake]
      refine hcounted.wake (fun i hi => ?_)
      unfold woken at hi
      split at hi
      next hpc =>
        rw [hpc]
        rfl
      next => cases hi

omit [DecidableEq K] in
/-- An access of a releaser inside `notify()`. -/
theorem Inv.releaseNotify (h : Inv s) {r : R} {pc : NotifyPc} (hr : s.releaser r = some pc) :
    Inv { s with
      nativeFutex := (s.nativeFutex.notifyStep pc).1
      pc := afterNotify s.pc pc
      releaser := Function.update s.releaser r (s.nativeFutex.notifyStep pc).2 } := by
  refine ⟨h.counted_notify pc, fun hrun => ?_⟩
  have hwakes := h.wakes hrun
  by_cases hpc : pc = .futexWake
  · subst hpc
    show Wakes s.nativeFutex (wake s.pc).waiter (Function.update s.releaser r none)
    rw [waiter_wake]
    refine hwakes.wake ?_ hr
    by_cases hblocked : s.pc = .futex .blocked
    · exact .inl ⟨(), by simp [woken, hblocked]⟩
    · refine .inr ⟨(), fun hw => hblocked ?_⟩
      cases hs : s.pc with
      | futex p =>
          rw [hs] at hw
          cases hw
          rfl
      | _ =>
          rw [hs] at hw
          cases hw
  · have hsame : afterNotify s.pc pc = s.pc := by
      cases pc with
      | futexWake => exact absurd rfl hpc
      | load => rfl
      | store => rfl
      | loadCounter => rfl
    show Wakes (s.nativeFutex.notifyStep pc).1 (afterNotify s.pc pc).waiter _
    rw [hsame]
    exact hwakes.notify hr hpc (h.counted.not_all_blocked (by decide)) rfl

omit [DecidableEq R] in
/-- An access of another notification. -/
theorem Inv.otherNotify (h : Inv s) (k : K) (pc : NotifyPc) :
    Inv { s with
      nativeFutex := (s.nativeFutex.notifyStep pc).1
      pc := afterNotify s.pc pc
      other := Function.update s.other k (s.nativeFutex.notifyStep pc).2 } := by
  refine ⟨h.counted_notify pc, fun hrun => ?_⟩
  have hwakes := h.wakes hrun
  cases pc with
  | load => exact hwakes
  | store => exact hwakes.congr (fun _ => by simp [notifyStep])
  | loadCounter => exact hwakes
  | futexWake =>
      show Wakes s.nativeFutex (wake s.pc).waiter s.releaser
      rw [waiter_wake]
      exact hwakes.wakeUp (woken s.pc)

omit [DecidableEq N] [DecidableEq R] [DecidableEq K] in
/-- The thread enters `native_futex.wait()`, having read `Waiting`. -/
theorem Inv.enter (h : Inv s) (hs : s.pc = .waiting) (hstate : s.mState = .waiting) :
    Inv { s with pc := (.futex .load : Pc N) } := by
  have hwaiter : (Pc.futex .load : Pc N).waiter = Function.update s.pc.waiter () (some .load) := by
    funext i
    rw [Function.update_self]
    rfl
  refine ⟨?_, fun hrun => ?_⟩
  · show Counted s.nativeFutex (Pc.futex .load : Pc N).waiter
    have hcounted := h.counted
    unfold Counted at hcounted ⊢
    rw [hwaiter, counted_update_of_eq (by rw [hs]; rfl)]
    exact hcounted
  · have hcontra : s.mState = .running := hrun
    rw [hstate] at hcontra
    cases hcontra

theorem inv_step (h : Inv s) {l : Label N R K} (hstep : step current s l = some s') : Inv s' := by
  cases l with
  -- the labels of the task: it is away from the futex until it enters the
  -- wait, so the invariant only has to follow its control point
  | wait =>
      simp only [step] at hstep
      split at hstep
      next hpc =>
        cases hstep
        exact h.look (by rw [hpc]; rfl) rfl s.mState
      next => cases hstep
  | schedule =>
      simp only [step] at hstep
      split at hstep
      next hpc =>
        cases hstep
        exact h.look (by rw [hpc]; rfl) rfl s.mState
      next => cases hstep
  | insert spurious data =>
      simp only [step] at hstep
      split at hstep
      next pc hpc =>
        cases hstep
        refine h.look (by rw [hpc]; rfl) ?_ _
        split <;> rfl
      next => cases hstep
  | nextTask found =>
      simp only [step] at hstep
      split at hstep
      next hpc =>
        cases hstep
        refine h.look (by rw [hpc]; rfl) ?_ s.mState
        split <;> rfl
      next => cases hstep
  -- its own steps, those of `Futex::wait` among them
  | run =>
      simp only [step] at hstep
      split at hstep
      next hpc =>
        cases hstep
        refine h.look (by rw [hpc]; rfl) ?_ s.mState
        split <;> rfl
      next hpc =>
        cases hstep
        split
        next hstate => exact h.enter hpc hstate
        next => exact h.look (by rw [hpc]; rfl) rfl s.mState
      next pc hpc =>
        obtain ⟨r, hr, rfl⟩ := Option.map_eq_some_iff.mp hstep
        exact h.wait hpc hr
      next => cases hstep
  | resume =>
      simp only [step] at hstep
      split at hstep
      next hpc =>
        cases hstep
        exact h.look (by rw [hpc]; rfl) rfl s.mState
      next => cases hstep
  -- the labels of the releasers and of the other notifiers
  | release r =>
      simp only [step] at hstep
      split at hstep
      next =>
        cases hstep
        exact ⟨h.counted, fun _ => .of_notifying (j := r) (by simp)⟩
      next => cases hstep
  | releaseNotify r =>
      simp only [step] at hstep
      split at hstep
      next pc hr =>
        cases hstep
        exact h.releaseNotify hr
      next => cases hstep
  | notify k =>
      simp only [step] at hstep
      split at hstep
      next =>
        cases hstep
        exact ⟨h.counted, h.wakes⟩
      next => cases hstep
  | otherNotify k =>
      simp only [step] at hstep
      split at hstep
      next pc hk =>
        cases hstep
        exact h.otherNotify k pc
      next => cases hstep

theorem inv_reachable (h : (machine N R K current).Reachable s) : Inv s := by
  refine Machine.Reach.invariant (M := machine N R K current) (I := Inv) ?_ ?_ h
  · rintro s rfl
    exact inv_initial
  · intro s l t hs _ hstep
    exact inv_step hs hstep

/-! ## §3. The result. -/

/-- **A released native task is never left asleep.** -/
theorem never_left_asleep (current : N) (s : State N R K)
    (h : (machine N R K current).Reachable s) : ¬ LeftAsleep s := by
  rintro ⟨hrun, hblocked, hdone⟩
  have hall : ∀ i, s.pc.waiter i = some .blocked := by
    intro i
    rw [hblocked]
    rfl
  obtain ⟨r, hr⟩ := ((inv_reachable h).wakes hrun).notifier_of_blocked hall
  exact hr (hdone r)

/-- The task waits, finds nothing else to run, takes the initial flag of the
futex, looks again and blocks; then a late notification raises the flag and a
releaser stores `Running`. -/
def lateNotification : List (Label Unit Bool Bool) :=
  .wait :: List.replicate 4 (.insert false {}) ++
  [.nextTask false, .run, .run, .run, .run, .nextTask false, .run, .run, .run, .run, .run,
   .notify true, .otherNotify true, .otherNotify true, .release false]

theorem never_left_asleep_lateNotification :
    ∃ s : State Unit Bool Bool, s.mState = .running ∧ s.pc = .futex .blocked ∧
      s.nativeFutex.workAvalable = 1 ∧ ¬ LeftAsleep s := by
  obtain ⟨s, hs, hp⟩ := Machine.exists_reach_of_replay (machine Unit Bool Bool ()) lateNotification
    (fun s => s.mState = .running ∧ s.pc = .futex .blocked ∧ s.nativeFutex.workAvalable = 1)
    rfl (by decide)
  obtain ⟨hrun, hblocked, hflag⟩ := of_decide_eq_true hp
  exact ⟨s, hrun, hblocked, hflag, never_left_asleep () s hs⟩

end NativeTask

end Alterstack
