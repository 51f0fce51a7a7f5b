/-
  Alterstack.Runtime.Code — the scheduler over its real running queue.

  The threads of `Alterstack.Scheduler.Code` call `running_queue_.put_item` and
  `running_queue_.get_item` of `Alterstack.Queue.Code`, one atomic access at a
  time and in any order with the accesses of the other threads.  The links that
  the queue reads and writes are the links of the tasks, which the wait lists
  use as well.

  A stack at a point of `do_schedule` or of an enqueueing where the queue is
  called has the control point of the call beside its own; it moves on when the
  call returns.  The priority of a `put_item` is the `m_priority` of the task,
  which the program may set at any time, so it is part of the label.  The
  counters `queued` of the scheduler's state are not read here.

  Main results:
    * `step_go`, `step_act`, `step_call`, `step_queue` — one inversion lemma
      for each kind of step.
-/
import Alterstack.Queue.Conservation
import Alterstack.Scheduler.Exclusive

namespace Alterstack

namespace Scheduler

/-- The links of all tasks are written. -/
def State.withLinks {Θ T A : Type*} (s : State Θ T A)
    (next : TaskId Θ T → Option (TaskId Θ T)) : State Θ T A :=
  { s with task := fun z => { s.task z with next := next z } }

@[simp] theorem State.link_withLinks {Θ T A : Type*} (s : State Θ T A)
    (next : TaskId Θ T → Option (TaskId Θ T)) : (s.withLinks next).link = next := rfl

end Scheduler

namespace Runtime

open Lib (Machine)
open Queue Scheduler

variable {Θ T A : Type*}

/-! ## §1. States and labels. -/

structure State (Θ T A : Type*) where
  sched : Scheduler.State Θ T A
  /-- `running_queue_`, and the call of it that is in progress on a stack -/
  queue : LockFreeQueue (TaskId Θ T)
  call : TaskId Θ T → Option (LockFreeQueue.Pc (TaskId Θ T))

/-- How a step is resolved: an access of the control point, an action of the
program, the begin of a call of the queue, an access inside it. -/
inductive Choice (T A : Type*) where
  | go (spurious : Bool)
  | act (action : Action T A)
  | call (prio : UInt32)
  | queue (spurious : Bool)

/-- A step of an OS thread. -/
abbrev Label (Θ T A : Type*) := Θ × Choice T A

/-- The call of the queue at a control point: `get_running_from_queue` and
`enqueue_unbound_task`. -/
def callAt (prio : UInt32) : Scheduler.Pc Θ T A → Option (LockFreeQueue.Pc (TaskId Θ T))
  | .schedule _ _ .queue => some LockFreeQueue.getItem
  | p => p.enqueueing.map fun task => LockFreeQueue.putItem task prio

/-- `get_running_from_queue` has returned `task`; a bound task goes on in
`do_schedule`, an unbound one to the read of `current_state`. -/
def gotPc (ret : SchedRet Θ T A) (currentTask : TaskId Θ T) :
    Option (TaskId Θ T) → Scheduler.Pc Θ T A
  | none =>
      .schedule ret currentTask (if currentTask.isThreadBound then .running else .currentState none)
  | some task =>
      if currentTask.isThreadBound then .switchTo ret task
      else .schedule ret currentTask (.currentState (some task))

variable [DecidableEq Θ] [DecidableEq T] [DecidableEq A]

/-- The call of the queue has returned `item`. -/
def queueReturn (bg : Θ → Bool) (s : Scheduler.State Θ T A) (θ : Θ) (x : TaskId Θ T)
    (item : Option (TaskId Θ T)) : Scheduler.Pc Θ T A → Option (Scheduler.State Θ T A)
  | .schedule ret currentTask .queue => some (s.setPc x (gotPc ret currentTask item))
  | p => goStep bg s θ x false p

/-- What an access inside a call leaves. -/
def afterQueue (bg : Θ → Bool) (c : State Θ T A) (θ : Θ) (x : TaskId Θ T)
    (r : LockFreeQueue (TaskId Θ T) × (TaskId Θ T → Option (TaskId Θ T)) ×
      LockFreeQueue.Next (TaskId Θ T)) : Option (State Θ T A) :=
  let s := c.sched.withLinks r.2.1
  match r.2.2 with
  | .goto pc => some ⟨s, r.1, Function.update c.call x (some pc)⟩
  | .ret item _ =>
      (queueReturn bg s θ x item (s.pc x)).map fun s' =>
        ⟨s', r.1, Function.update c.call x none⟩

/-- One step of the thread `l.1`, on the stack it executes. -/
def step (bg : Θ → Bool) (c : State Θ T A) (l : Label Θ T A) : Option (State Θ T A) :=
  let x := c.sched.exec l.1
  match l.2, c.call x with
  | .go spurious, none =>
      if (callAt 0 (c.sched.pc x)).isSome then none
      else (goStep bg c.sched l.1 x spurious (c.sched.pc x)).map fun s => { c with sched := s }
  | .act action, none =>
      (Scheduler.step bg c.sched (l.1, .act action)).map fun s => { c with sched := s }
  | .call prio, none =>
      (callAt prio (c.sched.pc x)).map fun pc =>
        { c with call := Function.update c.call x (some pc) }
  | .queue spurious, some pc =>
      afterQueue bg c l.1 x (c.queue.step spurious c.sched.link pc)
  | _, _ => none

/-- Every OS thread executes the code of its native task; the queue is empty. -/
def initial : State Θ T A where
  sched := Scheduler.initial
  queue := { itemBuffer := ⟨0, 0, fun _ => none⟩, prioQueue := fun _ => none }
  call := fun _ => none

def machine (T A : Type*) [DecidableEq T] [DecidableEq A] (bg : Θ → Bool) :
    Machine (State Θ T A) (Label Θ T A) where
  init := fun c => c = initial
  step := step bg

/-! ## §2. Inversion. -/

omit [DecidableEq Θ] [DecidableEq T] [DecidableEq A] in
theorem callAt_of_enqueueing {p : Scheduler.Pc Θ T A} {z : TaskId Θ T}
    (h : p.enqueueing = some z) (prio : UInt32) :
    callAt prio p = some (LockFreeQueue.putItem z prio) := by
  cases p with
  | schedule => cases h
  | _ => simp [callAt, h]

omit [DecidableEq Θ] [DecidableEq T] [DecidableEq A] in
/-- The calls that the points make. -/
theorem callAt_cases {p : Scheduler.Pc Θ T A} {prio : UInt32}
    {pc : LockFreeQueue.Pc (TaskId Θ T)} (h : callAt prio p = some pc) :
    (pc = LockFreeQueue.getItem ∧ ∃ ret me, p = .schedule ret me .queue) ∨
      ∃ z, pc = LockFreeQueue.putItem z prio ∧ p.enqueueing = some z := by
  have hput : p.enqueueing.map (fun z => LockFreeQueue.putItem z prio) = some pc →
      ∃ z, pc = LockFreeQueue.putItem z prio ∧ p.enqueueing = some z := by
    intro h
    obtain ⟨z, hz, rfl⟩ := Option.map_eq_some_iff.mp h
    exact ⟨z, rfl, hz⟩
  cases p with
  | schedule ret me q =>
      cases q with
      | queue =>
          injection h with h
          exact .inl ⟨h.symm, ret, me, rfl⟩
      | _ => cases h
  | _ => exact .inr (hput h)

variable {bg : Θ → Bool} {c c' : State Θ T A} {θ : Θ}

/-- An access of a point that does not call the queue. -/
theorem step_go {spurious : Bool} (h : step bg c (θ, .go spurious) = some c') :
    ∃ s', c.call (c.sched.exec θ) = none ∧ (c.sched.pc (c.sched.exec θ)).enqueueing = none ∧
      goStep bg c.sched θ (c.sched.exec θ) spurious (c.sched.pc (c.sched.exec θ)) = some s' ∧
      c' = { c with sched := s' } := by
  cases hcall : c.call (c.sched.exec θ) with
  | some pc =>
      simp only [step, hcall] at h
      cases h
  | none =>
      simp only [step, hcall] at h
      split at h
      next => cases h
      next hnot =>
        obtain ⟨s', hs', rfl⟩ := Option.map_eq_some_iff.mp h
        refine ⟨s', rfl, ?_, hs', rfl⟩
        cases henq : (c.sched.pc (c.sched.exec θ)).enqueueing with
        | none => rfl
        | some z => simp [callAt_of_enqueueing henq] at hnot

theorem step_act {action : Action T A} (h : step bg c (θ, .act action) = some c') :
    ∃ s', c.call (c.sched.exec θ) = none ∧
      Scheduler.step bg c.sched (θ, .act action) = some s' ∧ c' = { c with sched := s' } := by
  cases hcall : c.call (c.sched.exec θ) with
  | some pc =>
      simp only [step, hcall] at h
      cases h
  | none =>
      simp only [step, hcall] at h
      obtain ⟨s', hs', rfl⟩ := Option.map_eq_some_iff.mp h
      exact ⟨s', rfl, hs', rfl⟩

/-- A call of the queue begins. -/
theorem step_call {prio : UInt32} (h : step bg c (θ, .call prio) = some c') :
    ∃ pc, c.call (c.sched.exec θ) = none ∧ callAt prio (c.sched.pc (c.sched.exec θ)) = some pc ∧
      c' = { c with call := Function.update c.call (c.sched.exec θ) (some pc) } := by
  cases hcall : c.call (c.sched.exec θ) with
  | some pc =>
      simp only [step, hcall] at h
      cases h
  | none =>
      simp only [step, hcall] at h
      obtain ⟨pc, hpc, rfl⟩ := Option.map_eq_some_iff.mp h
      exact ⟨pc, rfl, hpc, rfl⟩

/-- An access inside a call. -/
theorem step_queue {spurious : Bool} (h : step bg c (θ, .queue spurious) = some c') :
    ∃ pc, c.call (c.sched.exec θ) = some pc ∧
      afterQueue bg c θ (c.sched.exec θ) (c.queue.step spurious c.sched.link pc) = some c' := by
  cases hcall : c.call (c.sched.exec θ) with
  | none =>
      simp only [step, hcall] at h
      cases h
  | some pc =>
      simp only [step, hcall] at h
      exact ⟨pc, rfl, h⟩

end Runtime

end Alterstack
