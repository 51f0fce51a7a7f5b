/-
  Alterstack.Awaitable.Code — the word of an `Awaitable` and the two functions
  that race on it.

  `insert_current_task_in_waitlist` and `release` (up to the hand-over of the
  list) are modelled by their control points, one atomic access per step; the
  writes to the link of the current task are part of the step they follow.
  The flag `spurious` of a compare-exchange step is the weak form's licence to
  fail although the values agree.
-/
import Mathlib.Logic.Basic

namespace Alterstack

/-! ## §1. What the word and a task hold. -/

/-- `enum class TaskState`. -/
inductive TaskState where
  | running
  | waiting
  | finished
  deriving DecidableEq

/-- `m_context`: `nullptr`, the constant `(void*)0x01`, or the saved
continuation of a task's stack. -/
inductive Context (N : Type*) where
  | null
  | one
  | fcontext (x : N)
  deriving DecidableEq

/-- The fields of `TaskBase` that other threads access: `m_state`,
`m_context` and the intrusive link. -/
structure TaskBase (N : Type*) where
  state : TaskState := .running
  context : Context N := .null
  next : Option N := none
  deriving DecidableEq

/-- `Awaitable::AwaitableData`, the content of `m_data`. -/
structure AwaitableData (N : Type*) where
  head : Option N := none
  isFinished : Bool := false
  deriving DecidableEq

namespace Awaitable

variable {N : Type*}

/-! ## §2. `insert_current_task_in_waitlist`. -/

/-- Control points; the argument is the local `aw_data`. -/
inductive InsertPc (N : Type*) where
  | load
  | setState (awData : AwaitableData N)
  | setContext (awData : AwaitableData N)
  | cas (awData : AwaitableData N)
  | undoState
  | undoContext
  deriving DecidableEq

/-- Where a step of the insertion leads: on to another point, or back to the
caller with the result. -/
inductive InsertNext (N : Type*) where
  | goto (pc : InsertPc N)
  | ret (inserted : Bool)
  deriving DecidableEq

/-- One step of `insert_current_task_in_waitlist` of the task `current`, whose
fields are `task`: the new word, the new fields and where it leads. -/
def insertStep [DecidableEq N] (current : N) (spurious : Bool) (data : AwaitableData N)
    (task : TaskBase N) : InsertPc N → AwaitableData N × TaskBase N × InsertNext N
  | .load => (data, task, if data.isFinished then .ret false else .goto (.setState data))
  | .setState aw => (data, { task with state := .waiting }, .goto (.setContext aw))
  | .setContext aw => (data, { task with context := .null, next := aw.head }, .goto (.cas aw))
  | .cas aw =>
      if data = aw ∧ spurious = false then
        ({ head := some current, isFinished := false }, task, .ret true)
      else if data.isFinished then (data, task, .goto .undoState)
      else (data, { task with next := data.head }, .goto (.cas data))
  | .undoState => (data, { task with state := .running }, .goto .undoContext)
  | .undoContext => (data, { task with context := .one }, .ret false)

/-! ## §3. `release`, up to the hand-over of the list. -/

inductive ReleasePc (N : Type*) where
  | load
  | cas (awData : AwaitableData N)
  deriving DecidableEq

/-- Where a step of `release` leads: on, back to the caller without effect, or
into `add_waiting_list_to_running` with the list that was taken. -/
inductive ReleaseNext (N : Type*) where
  | goto (pc : ReleasePc N)
  | ret
  | pass (taskList : Option N)
  deriving DecidableEq

/-- One step of `release`: the new word and where it leads. -/
def releaseStep [DecidableEq N] (spurious : Bool) (data : AwaitableData N) :
    ReleasePc N → AwaitableData N × ReleaseNext N
  | .load => (data, if data.isFinished then .ret else .goto (.cas data))
  | .cas aw =>
      if data = aw ∧ spurious = false then ({ head := none, isFinished := true }, .pass aw.head)
      else if data.isFinished then (data, .ret)
      else (data, .goto (.cas data))

end Awaitable

end Alterstack
