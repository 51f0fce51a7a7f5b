/-
  Alterstack.Scheduler.Code — tasks, OS threads and the functions that switch
  between them.

  Every task has a stack and every stack one control point, which carries the
  local variables of the functions active on it; an OS thread executes one
  stack at a time.  One step of a thread is one atomic access of the stack it
  executes, together with the accesses to links and locals around it.

  `jump_fcontext` suspends the caller's stack at its control point and resumes
  the stack whose continuation it is given; a jump to `nullptr` or to the
  constant `0x01` is no step at all.  The running queue is a bag whose
  `get_item` unlinks what it returns and may also return nothing: this is what
  `Alterstack.Queue.Conservation` leaves of `LockFreeQueue` for its callers.
  `native_futex.wait()` may return at any time, which is all that the loop in
  `do_schedule` relies on.  `m_current_task == nullptr` stands for the native
  task, which is what `get_current_task` makes of it.

  The fields `returned` and `insertedIn` are ghosts: no step reads them.
-/
import Mathlib.Data.Nat.Notation
import Mathlib.Logic.Function.Basic
import Alterstack.Lib.Machine
import Alterstack.Awaitable.Code

namespace Alterstack

namespace Scheduler

open Awaitable (InsertPc InsertNext insertStep ReleasePc ReleaseNext releaseStep)

/-! ## §1. Tasks, awaitables and control points. -/

/-- The native task of an OS thread (a `BoundTask`) or a `Task`. -/
inductive TaskId (Θ T : Type*) where
  | native (θ : Θ)
  | unbound (t : T)
  deriving DecidableEq

def TaskId.isThreadBound {Θ T : Type*} : TaskId Θ T → Bool
  | .native _ => true
  | .unbound _ => false

/-- An `Awaitable` of the program, or the member `m_awaitable` of a task. -/
inductive AwId (Θ T A : Type*) where
  | user (a : A)
  | own (x : TaskId Θ T)
  deriving DecidableEq

/-- Where `schedule` or `switch_to` was called: `Awaitable::wait`,
`Task::yield`, the loop of `~Task`, the constructor of `Task`, the start or the
end of `_run_wrapper`. -/
inductive SchedRet (Θ T A : Type*) where
  | wait (a : AwId Θ T A)
  | yield
  | dtor (t : T)
  | ctor (t : T)
  | start
  | finished
  deriving DecidableEq

/-- Where `release` was called: by the program, in `~Task`, at the end of
`_run_wrapper` with its local `current`, in `~BoundTask` of `this`. -/
inductive ReleaseRet (Θ T : Type*) where
  | user
  | dtor (t : T)
  | finish (current : TaskId Θ T)
  | exit (this : TaskId Θ T)
  deriving DecidableEq

/-- Points of `do_schedule` and `get_next_task`: the look at the native task,
the look into the queue, the read of `current_state`, the read that lets
`do_schedule` return, the read before `native_futex.wait()`, and that wait. -/
inductive SchedPc (Θ T : Type*) where
  | native
  | queue
  | currentState (nextTask : Option (TaskId Θ T))
  | running
  | waiting
  | futex
  deriving DecidableEq

/-- Points of `post_jump_fcontext`: the stores to `current_task->m_context` and
`prev_task->m_context`, the read of `prev_task->m_state`, the enqueueing. -/
inductive PostPc where
  | clearCurrent
  | savePrev
  | prevState
  | enqueue
  deriving DecidableEq

/-- The control point of a stack. -/
inductive Pc (Θ T A : Type*) where
  /-- not constructed; constructed and never jumped to; suspended in `switch_to` -/
  | unborn
  | start
  | suspended (ret : SchedRet Θ T A) (oldTask : TaskId Θ T)
  /-- the code of the program -/
  | user
  /-- `insert_current_task_in_waitlist`, and `wait` about to return -/
  | insert (a : AwId Θ T A) (currentTask : TaskId Θ T) (pc : InsertPc (TaskId Θ T))
  | waitRet (a : AwId Θ T A) (inserted : Bool)
  /-- the read of `m_state` in `join`, and `join` about to return after it -/
  | joinState (t : T)
  | joinRet (t : T)
  /-- `do_schedule`, `switch_to`, `post_jump_fcontext` -/
  | schedule (ret : SchedRet Θ T A) (currentTask : TaskId Θ T) (pc : SchedPc Θ T)
  | switchTo (ret : SchedRet Θ T A) (newTask : TaskId Θ T)
  | postJump (ret : SchedRet Θ T A) (currentTask prevTask : TaskId Θ T)
      (fctx : Context (TaskId Θ T)) (pc : PostPc)
  /-- `release`, and the points of `add_waiting_list_to_running` for `task` -/
  | release (ret : ReleaseRet Θ T) (a : AwId Θ T A) (pc : ReleasePc (TaskId Θ T))
  | addState (ret : ReleaseRet Θ T) (a : AwId Θ T A) (task : TaskId Θ T)
      (delayed : Option (TaskId Θ T))
  | addNotify (ret : ReleaseRet Θ T) (a : AwId Θ T A) (taskList delayed : Option (TaskId Θ T))
      (task : TaskId Θ T)
  | addContext (ret : ReleaseRet Θ T) (a : AwId Θ T A) (taskList delayed : Option (TaskId Θ T))
      (task : TaskId Θ T)
  | addEnqueue (ret : ReleaseRet Θ T) (a : AwId Θ T A) (taskList delayed : Option (TaskId Θ T))
      (task : TaskId Θ T)
  | delayedContext (ret : ReleaseRet Θ T) (a : AwId Θ T A) (delayed : Option (TaskId Θ T))
      (task : TaskId Θ T)
  | delayedEnqueue (ret : ReleaseRet Θ T) (a : AwId Θ T A) (delayed : Option (TaskId Θ T))
      (task : TaskId Θ T)
  /-- the store of `Finished` in `_run_wrapper`, what follows its `schedule` -/
  | finishState (current : TaskId Θ T)
  | unreachable
  /-- the store of `Finished` in `~BoundTask`, the end of the OS thread -/
  | exitState (this : TaskId Θ T)
  | exited
  /-- the two reads of the loop of `~Task`, and the end of the loop -/
  | dtorState (t : T)
  | dtorContext (t : T)
  | dtorFree (t : T)
  deriving DecidableEq

/-- The life of a task object. -/
inductive Life where
  | unborn
  | constructing
  | alive
  | dying
  | destroyed
  deriving DecidableEq

structure State (Θ T A : Type*) where
  task : TaskId Θ T → TaskBase (TaskId Θ T)
  aw : AwId Θ T A → AwaitableData (TaskId Θ T)
  /-- how often a task is stored in the running queue -/
  queued : T → ℕ
  /-- `TaskRunner::m_current_task`, and the stack the thread really executes -/
  cur : Θ → TaskId Θ T
  exec : Θ → TaskId Θ T
  pc : TaskId Θ T → Pc Θ T A
  /-- the local `current` of `_run_wrapper` on the stack -/
  wrapper : TaskId Θ T → TaskId Θ T
  life : TaskId Θ T → Life
  /-- has `m_runnable` returned; in whose list was the task inserted last -/
  returned : T → Bool
  insertedIn : TaskId Θ T → Option (AwId Θ T A)

/-- What the code of the program may do. -/
inductive Action (T A : Type*) where
  | wait (a : A)
  | release (a : A)
  | join (t : T)
  | yield
  | create (t : T)
  | destroy (t : T)
  | finish
  | exit

/-- How a step is resolved: the accesses of the control point (with the weak
compare-exchange's licence to fail), what the queue returns, an action. -/
inductive Choice (T A : Type*) where
  | go (spurious : Bool)
  | pick (t : Option T)
  | act (action : Action T A)

/-- A step of an OS thread. -/
abbrev Label (Θ T A : Type*) := Θ × Choice T A

variable {Θ T A : Type*} [DecidableEq Θ] [DecidableEq T] [DecidableEq A]

/-! ## §2. Updates. -/

namespace State

def setPc (s : State Θ T A) (x : TaskId Θ T) (p : Pc Θ T A) : State Θ T A :=
  { s with pc := Function.update s.pc x p }

def setTask (s : State Θ T A) (x : TaskId Θ T) (f : TaskBase (TaskId Θ T)) : State Θ T A :=
  { s with task := Function.update s.task x f }

def setAw (s : State Θ T A) (a : AwId Θ T A) (data : AwaitableData (TaskId Θ T)) : State Θ T A :=
  { s with aw := Function.update s.aw a data }

def setLife (s : State Θ T A) (x : TaskId Θ T) (l : Life) : State Θ T A :=
  { s with life := Function.update s.life x l }

/-- The links of the tasks. -/
def link (s : State Θ T A) (x : TaskId Θ T) : Option (TaskId Θ T) := (s.task x).next

/-- `running_queue_.put_item(task, ...)` of an unbound task. -/
def enqueue (s : State Θ T A) : TaskId Θ T → State Θ T A
  | .unbound t => { s with queued := Function.update s.queued t (s.queued t + 1) }
  | .native _ => s

/-- `running_queue_.get_item(...)` has returned `t`. -/
def dequeue (s : State Θ T A) (t : T) : State Θ T A :=
  { s with
    queued := Function.update s.queued t (s.queued t - 1)
    task := Function.update s.task (.unbound t) { s.task (.unbound t) with next := none } }

end State

/-! ## §3. `do_schedule`, `switch_to`, `post_jump_fcontext`. -/

section Steps

variable (bg : Θ → Bool) (s : State Θ T A) (θ : Θ) (x : TaskId Θ T)

/-- Where `get_next_task(current_task)` starts on the thread. -/
def nextTaskPc (currentTask : TaskId Θ T) : SchedPc Θ T :=
  if currentTask.isThreadBound then .queue else if bg θ then .queue else .native

/-- `schedule()` with its default argument. -/
def schedule (ret : SchedRet Θ T A) : State Θ T A :=
  s.setPc x (.schedule ret (s.cur θ) (nextTaskPc bg θ (s.cur θ)))

/-- Where the callers of `schedule` and `switch_to` go on. -/
def returnPc : SchedRet Θ T A → Pc Θ T A
  | .wait a => .waitRet a true
  | .yield => .user
  | .dtor t => .dtorState t
  | .ctor _ => .user
  | .start => .user
  | .finished => .unreachable

/-- `schedule` or `switch_to` has returned; the constructor of a task ends. -/
def scheduleReturn (ret : SchedRet Θ T A) : State Θ T A :=
  let s' :=
    match ret with
    | .ctor t => s.setLife (.unbound t) .alive
    | _ => s
  s'.setPc x (returnPc ret)

/-- `get_running_from_queue` has returned; a bound task goes on in
`do_schedule`, an unbound one to the read of `current_state`. -/
def pickStep (ret : SchedRet Θ T A) (currentTask : TaskId Θ T) (t : Option T) :
    Option (State Θ T A) :=
  match t with
  | none =>
      some (s.setPc x (.schedule ret currentTask
        (if currentTask.isThreadBound then .running else .currentState none)))
  | some t =>
      if 0 < s.queued t then
        some ((s.dequeue t).setPc x
          (if currentTask.isThreadBound then .switchTo ret (.unbound t)
            else .schedule ret currentTask (.currentState (some (.unbound t)))))
      else none

/-- One step of `do_schedule(current_task)`, the look into the queue apart. -/
def scheduleStep (ret : SchedRet Θ T A) (currentTask : TaskId Θ T) :
    SchedPc Θ T → Option (State Θ T A)
  | .native =>
      some (s.setPc x (.schedule ret currentTask
        (if (s.task (.native θ)).state = .running then .currentState (some (.native θ))
          else .queue)))
  | .queue => none
  | .currentState (some nextTask) => some (s.setPc x (.switchTo ret nextTask))
  | .currentState none =>
      let currentState := (s.task currentTask).state
      some (s.setPc x
        (if currentState = .finished ∨ currentState = .waiting then .switchTo ret (.native θ)
          else .schedule ret currentTask .running))
  | .running =>
      if (s.task currentTask).state = .running then some (scheduleReturn s x ret)
      else some (s.setPc x (.schedule ret currentTask .waiting))
  | .waiting =>
      some (s.setPc x (.schedule ret currentTask
        (if (s.task currentTask).state = .waiting then .futex else nextTaskPc bg θ currentTask)))
  | .futex => some (s.setPc x (.schedule ret currentTask (nextTaskPc bg θ currentTask)))

/-- What a resumed stack does first: `post_jump_fcontext`, on the frame of its
`switch_to` with the local `old_task`, or at the start of `_run_wrapper` with
`get_current_task()`. -/
def resumed (newTask prevTask : TaskId Θ T) (fctx : Context (TaskId Θ T)) :
    Pc Θ T A → Pc Θ T A
  | .suspended ret oldTask => .postJump ret oldTask prevTask fctx .clearCurrent
  | .start => .postJump .start newTask prevTask fctx .clearCurrent
  | p => p

/-- `switch_to(new_task)`: the current task is replaced, `m_context` is read and
jumped to, with the old task as data. -/
def switchStep (ret : SchedRet Θ T A) (newTask : TaskId Θ T) : Option (State Θ T A) :=
  match (s.task newTask).context with
  | .fcontext y =>
      let oldTask := s.cur θ
      some { s with
        cur := Function.update s.cur θ newTask
        exec := Function.update s.exec θ y
        wrapper := if s.pc y = .start then Function.update s.wrapper y newTask else s.wrapper
        pc := Function.update (Function.update s.pc x (.suspended ret oldTask)) y
          (resumed newTask oldTask (.fcontext x) (s.pc y)) }
  | _ => none

/-- One step of `post_jump_fcontext(transfer, current_task)`. -/
def postJumpStep (ret : SchedRet Θ T A) (currentTask prevTask : TaskId Θ T)
    (fctx : Context (TaskId Θ T)) : PostPc → State Θ T A
  | .clearCurrent =>
      (s.setTask currentTask { s.task currentTask with context := .null }).setPc x
        (.postJump ret currentTask prevTask fctx .savePrev)
  | .savePrev =>
      (s.setTask prevTask { s.task prevTask with context := fctx }).setPc x
        (.postJump ret currentTask prevTask fctx .prevState)
  | .prevState =>
      if prevTask.isThreadBound = false ∧ (s.task prevTask).state = .running then
        s.setPc x (.postJump ret currentTask prevTask fctx .enqueue)
      else scheduleReturn s x ret
  | .enqueue => scheduleReturn (s.enqueue prevTask) x ret

/-! ## §4. `wait`, `release`, `add_waiting_list_to_running`. -/

/-- One step of `insert_current_task_in_waitlist`, and what `wait` makes of its
result. -/
def insertionStep (spurious : Bool) (a : AwId Θ T A) (currentTask : TaskId Θ T)
    (pc : InsertPc (TaskId Θ T)) : State Θ T A :=
  let r := insertStep currentTask spurious (s.aw a) (s.task currentTask) pc
  let s' := (s.setAw a r.1).setTask currentTask r.2.1
  match r.2.2 with
  | .goto pc' => s'.setPc x (.insert a currentTask pc')
  | .ret false => s'.setPc x (.waitRet a false)
  | .ret true =>
      schedule bg { s' with insertedIn := Function.update s'.insertedIn currentTask (some a) } θ x
        (.wait a)

/-- `release` has returned. -/
def releaseReturn : ReleaseRet Θ T → Pc Θ T A
  | .user => .user
  | .dtor t => .dtorState t
  | .finish current => .finishState current
  | .exit this => .exitState this

/-- The heads of the two loops of `add_waiting_list_to_running`. -/
def nextWaiting (ret : ReleaseRet Θ T) (a : AwId Θ T A) (delayed : Option (TaskId Θ T)) :
    Option (TaskId Θ T) → State Θ T A
  | some task => s.setPc x (.addState ret a task delayed)
  | none =>
      match delayed with
      | none => s.setPc x (releaseReturn ret)
      | some task =>
          (s.setTask task { s.task task with next := none }).setPc x
            (.delayedContext ret a (s.link task) task)

/-- One step of `release`, up to the hand-over of the list. -/
def releasingStep (spurious : Bool) (ret : ReleaseRet Θ T) (a : AwId Θ T A)
    (pc : ReleasePc (TaskId Θ T)) : State Θ T A :=
  let r := releaseStep spurious (s.aw a) pc
  let s' := s.setAw a r.1
  match r.2 with
  | .goto pc' => s'.setPc x (.release ret a pc')
  | .ret => s'.setPc x (releaseReturn ret)
  | .pass taskList => nextWaiting s' x ret a none taskList

/-- `task` leaves the list and becomes Running. -/
def addStateStep (ret : ReleaseRet Θ T) (a : AwId Θ T A) (task : TaskId Θ T)
    (delayed : Option (TaskId Θ T)) : State Θ T A :=
  (s.setTask task { s.task task with state := .running, next := none }).setPc x
    (if task.isThreadBound then .addNotify ret a (s.link task) delayed task
      else .addContext ret a (s.link task) delayed task)

/-- The look at `m_context`: the task is delayed or can be enqueued. -/
def addContextStep (ret : ReleaseRet Θ T) (a : AwId Θ T A)
    (taskList delayed : Option (TaskId Θ T)) (task : TaskId Θ T) : State Θ T A :=
  if (s.task task).context = .null then
    nextWaiting (s.setTask task { s.task task with next := delayed }) x ret a (some task) taskList
  else s.setPc x (.addEnqueue ret a taskList delayed task)

/-- The loop around `wait_while_context_is_null`. -/
def delayedContextStep (ret : ReleaseRet Θ T) (a : AwId Θ T A) (delayed : Option (TaskId Θ T))
    (task : TaskId Θ T) : State Θ T A :=
  if (s.task task).context = .null then s
  else s.setPc x (.delayedEnqueue ret a delayed task)

/-! ## §5. The program, `join`, and the ends of tasks. -/

/-- Actions.  A program joins and destroys only tasks it has constructed and
not destroyed, destroys each at most once, ends only its own function; the
native task of a BgThread only schedules and ends. -/
def actionStep : Action T A → Option (State Θ T A)
  | .wait a =>
      if x = .native θ ∧ bg θ then none
      else some (s.setPc x (.insert (.user a) (s.cur θ) .load))
  | .release a =>
      if x = .native θ ∧ bg θ then none
      else some (s.setPc x (.release .user (.user a) .load))
  | .join t =>
      if (x = .native θ ∧ bg θ) ∨ s.life (.unbound t) = .unborn ∨
          s.life (.unbound t) = .destroyed then none
      else some (s.setPc x (.joinState t))
  | .yield => some (schedule bg s θ x .yield)
  | .create t =>
      if (x = .native θ ∧ bg θ) ∨ s.life (.unbound t) ≠ .unborn then none
      else
        let s' := (s.setTask (.unbound t) { context := .fcontext (.unbound t) }).setLife
          (.unbound t) .constructing
        some ((s'.setPc (.unbound t) .start).setPc x (.switchTo (.ctor t) (.unbound t)))
  | .destroy t =>
      if (x = .native θ ∧ bg θ) ∨ s.life (.unbound t) ≠ .alive then none
      else
        some ((s.setLife (.unbound t) .dying).setPc x
          (.release (.dtor t) (.own (.unbound t)) .load))
  | .finish =>
      match x with
      | .native _ => none
      | .unbound t =>
          let current := s.wrapper x
          some ({ s with returned := Function.update s.returned t true }.setPc x
            (.release (.finish current) (.own current) .load))
  | .exit =>
      match x with
      | .native θ' => some (s.setPc x (.release (.exit (.native θ')) (.own (.native θ')) .load))
      | .unbound _ => none

/-- The accesses of the control point. -/
def goStep (spurious : Bool) : Pc Θ T A → Option (State Θ T A)
  | .unborn | .start | .suspended _ _ | .user | .unreachable | .exited => none
  | .insert a currentTask pc => some (insertionStep bg s θ x spurious a currentTask pc)
  | .waitRet _ _ | .joinRet _ => some (s.setPc x .user)
  | .joinState t =>
      some (s.setPc x (if (s.task (.unbound t)).state = .finished then .joinRet t
        else .insert (.own (.unbound t)) (s.cur θ) .load))
  | .schedule ret currentTask pc => scheduleStep bg s θ x ret currentTask pc
  | .switchTo ret newTask => switchStep s θ x ret newTask
  | .postJump ret currentTask prevTask fctx pc =>
      some (postJumpStep s x ret currentTask prevTask fctx pc)
  | .release ret a pc => some (releasingStep s x spurious ret a pc)
  | .addState ret a task delayed => some (addStateStep s x ret a task delayed)
  | .addNotify ret a taskList delayed _ => some (nextWaiting s x ret a delayed taskList)
  | .addContext ret a taskList delayed task =>
      some (addContextStep s x ret a taskList delayed task)
  | .addEnqueue ret a taskList delayed task =>
      some (nextWaiting (s.enqueue task) x ret a delayed taskList)
  | .delayedContext ret a delayed task => some (delayedContextStep s x ret a delayed task)
  | .delayedEnqueue ret a delayed task =>
      some (nextWaiting (s.enqueue task) x ret a delayed none)
  | .finishState current =>
      let s' := s.setTask current { s.task current with state := .finished }
      some (s'.setPc x (.schedule .finished current (nextTaskPc bg θ current)))
  | .exitState this =>
      some (((s.setTask this { s.task this with state := .finished }).setLife this .destroyed).setPc
        x .exited)
  | .dtorState t =>
      if (s.task (.unbound t)).state = .finished then some (s.setPc x (.dtorContext t))
      else some (schedule bg s θ x (.dtor t))
  | .dtorContext t =>
      if (s.task (.unbound t)).context = .null then some (schedule bg s θ x (.dtor t))
      else some (s.setPc x (.dtorFree t))
  | .dtorFree t => some ((s.setLife (.unbound t) .destroyed).setPc x .user)

end Steps

/-- One step of the thread `l.1`, on the stack it executes. -/
def step (bg : Θ → Bool) (s : State Θ T A) (l : Label Θ T A) : Option (State Θ T A) :=
  let x := s.exec l.1
  match l.2, s.pc x with
  | .go spurious, p => goStep bg s l.1 x spurious p
  | .pick t, .schedule ret currentTask .queue => pickStep s x ret currentTask t
  | .act action, .user => actionStep bg s l.1 x action
  | _, _ => none

/-- Every OS thread executes the code of its native task; no `Task` exists. -/
def initial : State Θ T A where
  task := fun _ => {}
  aw := fun _ => {}
  queued := fun _ => 0
  cur := .native
  exec := .native
  pc := fun
    | .native _ => .user
    | .unbound _ => .unborn
  wrapper := fun x => x
  life := fun
    | .native _ => .alive
    | .unbound _ => .unborn
  returned := fun _ => false
  insertedIn := fun _ => none

/-- The scheduler on the threads `Θ`, of which `bg` are BgThreads. -/
def machine (T A : Type*) [DecidableEq T] [DecidableEq A] (bg : Θ → Bool) :
    Lib.Machine (State Θ T A) (Label Θ T A) where
  init := fun s => s = initial
  step := step bg

/-- `n` accesses in a row of one thread. -/
def goes (θ : Θ) (n : ℕ) : List (Label Θ T A) := List.replicate n (θ, .go false)

end Scheduler

end Alterstack
