/-
  Alterstack.Waking.Code — `add_waiting_list_to_running`, access by access.

  One call of the function, with one step for each read and write of a field of
  a task; `enqueue_unbound_task` and `notify` are one step each.  The two
  locals are parts of the control point, and so is the pointer that
  `wait_while_context_is_null` is given.

  Between two steps of the call the rest of the program may write any field of
  any task (`Label.other`).  The side condition `LeavesAlone` says what it
  promises: the link of a task in the list is not written before the call has
  passed the task on, and an `m_context` that has become non-null stays so.

  The field `log` is a ghost: no step reads it.
-/
import Alterstack.Awaitable.Code
import Alterstack.Lib.Machine
import Alterstack.Lib.Segment

namespace Alterstack

namespace Waking

open Lib (Machine Seg)

variable {N : Type*}

/-! ## §1. Control points, and what is recorded. -/

/-- Control points of `add_waiting_list_to_running`; `task`, `taskList` and
`nullContextTasks` are the locals of that name, as far as they are read again. -/
inductive Pc (N : Type*) where
  /-- `task_list = task_list->next()` -/
  | readNext (task : N) (nullContextTasks : Option N)
  /-- `task->set_next( nullptr )` -/
  | clearNext (task : N) (taskList nullContextTasks : Option N)
  /-- `task->m_state = TaskState::Running` -/
  | setState (task : N) (taskList nullContextTasks : Option N)
  /-- `bound_task->notify()` -/
  | notify (task : N) (taskList nullContextTasks : Option N)
  /-- `task->m_context.load(...) == nullptr` -/
  | loadContext (task : N) (taskList nullContextTasks : Option N)
  /-- `task->set_next( null_context_tasks )` -/
  | delay (task : N) (taskList nullContextTasks : Option N)
  /-- `enqueue_unbound_task( task )` of the first loop -/
  | enqueue (task : N) (taskList nullContextTasks : Option N)
  /-- `null_context_tasks = null_context_tasks->next()` -/
  | delayedReadNext (task : N)
  /-- `task->set_next( nullptr )` of the second loop -/
  | delayedClearNext (task : N) (nullContextTasks : Option N)
  /-- the condition of the loop around `wait_while_context_is_null` -/
  | whileContext (task : N) (nullContextTasks : Option N)
  /-- the `if` and the `while` of `wait_while_context_is_null` -/
  | ifContext (task : N) (nullContextTasks : Option N)
  | sleepContext (task : N) (nullContextTasks : Option N)
  /-- `enqueue_unbound_task( task )` of the second loop -/
  | delayedEnqueue (task : N) (nullContextTasks : Option N)
  | returned
  deriving DecidableEq

/-- What the call does for a task: its store to `m_state`, the notification,
the decision to delay it, and its enqueueing together with the link and the
context that the task has at that moment. -/
inductive Event (N : Type*) where
  | stored (task : N) (state : TaskState)
  | notified (task : N)
  | delayed (task : N)
  | enqueued (task : N) (next : Option N) (context : Context N)
  deriving DecidableEq

structure State (N : Type*) where
  task : N → TaskBase N
  pc : Pc N
  /-- what the call has done so far, in order -/
  log : List (Event N)

namespace State

/-- The links of the tasks. -/
def link (s : State N) (x : N) : Option N := (s.task x).next

def goto (s : State N) (pc : Pc N) : State N := { s with pc := pc }

def record (s : State N) (e : Event N) : State N := { s with log := s.log ++ [e] }

variable [DecidableEq N]

def setTask (s : State N) (x : N) (f : TaskBase N) : State N :=
  { s with task := Function.update s.task x f }

def setNext (s : State N) (x : N) (next : Option N) : State N :=
  s.setTask x { s.task x with next := next }

end State

/-! ## §2. The steps of the call. -/

/-- The head of the second loop. -/
def delayedLoop : Option N → Pc N
  | some task => .delayedReadNext task
  | none => .returned

/-- The head of the first loop. -/
def listLoop (nullContextTasks : Option N) : Option N → Pc N
  | some task => .readNext task nullContextTasks
  | none => delayedLoop nullContextTasks

section Steps

variable [DecidableEq N]

/-- One step of the call. -/
def runStep (isThreadBound : N → Bool) (s : State N) : Option (State N) :=
  match s.pc with
  | .readNext task delayed => some (s.goto (.clearNext task (s.link task) delayed))
  | .clearNext task taskList delayed =>
      some ((s.setNext task none).goto (.setState task taskList delayed))
  | .setState task taskList delayed =>
      let s' := s.setTask task { s.task task with state := .running }
      some ((s'.record (.stored task (s'.task task).state)).goto
        (if isThreadBound task then .notify task taskList delayed
          else .loadContext task taskList delayed))
  | .notify task taskList delayed =>
      some ((s.record (.notified task)).goto (listLoop delayed taskList))
  | .loadContext task taskList delayed =>
      if (s.task task).context = .null then
        some ((s.record (.delayed task)).goto (.delay task taskList delayed))
      else some (s.goto (.enqueue task taskList delayed))
  | .delay task taskList delayed =>
      some ((s.setNext task delayed).goto (listLoop (some task) taskList))
  | .enqueue task taskList delayed =>
      some ((s.record (.enqueued task (s.link task) (s.task task).context)).goto
        (listLoop delayed taskList))
  | .delayedReadNext task => some (s.goto (.delayedClearNext task (s.link task)))
  | .delayedClearNext task delayed =>
      some ((s.setNext task none).goto (.whileContext task delayed))
  | .whileContext task delayed =>
      some (s.goto (if (s.task task).context = .null then .ifContext task delayed
        else .delayedEnqueue task delayed))
  | .ifContext task delayed =>
      some (s.goto (if (s.task task).context = .null then .sleepContext task delayed
        else .whileContext task delayed))
  | .sleepContext task delayed =>
      some (s.goto (if (s.task task).context = .null then .sleepContext task delayed
        else .whileContext task delayed))
  | .delayedEnqueue task delayed =>
      some ((s.record (.enqueued task (s.link task) (s.task task).context)).goto
        (delayedLoop delayed))
  | .returned => none

/-- A step of the call, or of the rest of the program. -/
inductive Label (N : Type*) where
  | run
  | other (task : N → TaskBase N)

def step (isThreadBound : N → Bool) (s : State N) : Label N → Option (State N)
  | .run => runStep isThreadBound s
  | .other task => some { s with task := task }

/-- The call is about to begin, with the list `l`. -/
structure Start (l : List N) (s : State N) : Prop where
  nodup : l.Nodup
  log : s.log = []
  list : ∃ head, s.pc = listLoop none head ∧ Seg s.link head l none

/-- One call with the list `l`, in any memory. -/
def machine (isThreadBound : N → Bool) (l : List N) : Machine (State N) (Label N) where
  init := Start l
  step := step isThreadBound

end Steps

/-! ## §3. What the rest of the program promises. -/

namespace Event

@[simp] def store : Event N → Option (N × TaskState)
  | .stored task state => some (task, state)
  | _ => none

@[simp] def notification : Event N → Option N
  | .notified task => some task
  | _ => none

@[simp] def delay : Event N → Option N
  | .delayed task => some task
  | _ => none

@[simp] def enqueue : Event N → Option N
  | .enqueued task _ _ => some task
  | _ => none

end Event

/-- The tasks the call has stored a state for so far, each with that state. -/
def stores (log : List (Event N)) : List (N × TaskState) := log.filterMap Event.store

def notifications (log : List (Event N)) : List N := log.filterMap Event.notification

def delays (log : List (Event N)) : List N := log.filterMap Event.delay

def enqueues (log : List (Event N)) : List N := log.filterMap Event.enqueue

section Projections

variable (e : Event N) (log log' : List (Event N))

@[simp] theorem stores_nil : stores ([] : List (Event N)) = [] := rfl
@[simp] theorem stores_cons : stores (e :: log) = e.store.toList ++ stores log := by
  cases e <;> rfl
@[simp] theorem stores_append : stores (log ++ log') = stores log ++ stores log' :=
  List.filterMap_append

@[simp] theorem notifications_nil : notifications ([] : List (Event N)) = [] := rfl
@[simp] theorem notifications_cons :
    notifications (e :: log) = e.notification.toList ++ notifications log := by cases e <;> rfl
@[simp] theorem notifications_append :
    notifications (log ++ log') = notifications log ++ notifications log' :=
  List.filterMap_append

@[simp] theorem delays_nil : delays ([] : List (Event N)) = [] := rfl
@[simp] theorem delays_cons : delays (e :: log) = e.delay.toList ++ delays log := by
  cases e <;> rfl
@[simp] theorem delays_append : delays (log ++ log') = delays log ++ delays log' :=
  List.filterMap_append

@[simp] theorem enqueues_nil : enqueues ([] : List (Event N)) = [] := rfl
@[simp] theorem enqueues_cons : enqueues (e :: log) = e.enqueue.toList ++ enqueues log := by
  cases e <;> rfl
@[simp] theorem enqueues_append : enqueues (log ++ log') = enqueues log ++ enqueues log' :=
  List.filterMap_append

end Projections

/-- The tasks the call has passed on so far: bound tasks when they are Running,
unbound ones when they are enqueued. -/
def Passed (isThreadBound : N → Bool) (log : List (Event N)) (x : N) : Prop :=
  if isThreadBound x then x ∈ (stores log).map Prod.fst else x ∈ enqueues log

/-- The side condition of a call with the list `l`: before the call has passed
a task of the list on, nobody else writes its link, and nobody sets the
`m_context` of an unbound one back to null. -/
def LeavesAlone (isThreadBound : N → Bool) (l : List N) (s : State N) : Label N → Prop
  | .run => True
  | .other task => ∀ x ∈ l, ¬ Passed isThreadBound s.log x →
      (task x).next = s.link x ∧
        (isThreadBound x = false → (s.task x).context ≠ .null → (task x).context ≠ .null)

end Waking

end Alterstack
