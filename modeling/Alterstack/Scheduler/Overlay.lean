/-
  Alterstack.Scheduler.Overlay — a step depends on one link at most.

  `s.over link queued` is the state `s` with other links and other counters.  A
  step of the scheduler reads and writes the link of at most one task, which
  its control point names; where the two states agree on that link, the step
  does the same in both, and they agree on it afterwards.

  Main results:
    * `goStep_over`, `actionStep_over` — a step of `s` is a step of
      `s.over link queued`;
    * `Carries.agree`, `Carries.frame` — the links after it.
-/
import Alterstack.Scheduler.Links

namespace Alterstack

namespace Scheduler

open Awaitable (InsertPc InsertNext insertStep ReleasePc ReleaseNext releaseStep)

variable {Θ T A : Type*}

/-! ## §1. Other links and counters. -/

/-- The state `s` with the links `link` and the counters `queued`. -/
def State.over (s : State Θ T A) (link : TaskId Θ T → Option (TaskId Θ T)) (queued : T → ℕ) :
    State Θ T A :=
  { s with
    task := fun z => { s.task z with next := link z }
    queued := queued }

/-- The task whose link the next step may read or write. -/
def Pc.relinking : Pc Θ T A → Option (TaskId Θ T)
  | .insert _ currentTask _ => some currentTask
  | .addState _ _ task _ | .addContext _ _ _ _ task => some task
  | _ => none

/-- The task that an action links anew. -/
def Action.relinking : Action T A → Option (TaskId Θ T)
  | .create t => some (.unbound t)
  | _ => none

/-- The counters after the enqueueing, if there is one. -/
def countPut [DecidableEq T] (queued : T → ℕ) : Option (TaskId Θ T) → T → ℕ
  | some (.unbound t) => Function.update queued t (queued t + 1)
  | _ => queued

/-- The step from `s` to `s'` and a step to `a'` leave the same link of the
task `w` and write no other one; `link` are the other links before them. -/
def Carries (s s' a' : State Θ T A) (link : TaskId Θ T → Option (TaskId Θ T)) (queued : T → ℕ)
    (w : Option (TaskId Θ T)) : Prop :=
  ∃ link', a' = s'.over link' queued ∧ (∀ z, w = some z → link' z = s'.link z) ∧
    ∀ z, w ≠ some z → link' z = link z ∧ s'.link z = s.link z

variable {s s' a' : State Θ T A} {θ : Θ} {x z : TaskId Θ T} {p : Pc Θ T A} {spurious : Bool}
  {link : TaskId Θ T → Option (TaskId Θ T)} {queued queued' : T → ℕ} {w : Option (TaskId Θ T)}
  {ret : SchedRet Θ T A} {rel : ReleaseRet Θ T} {a : AwId Θ T A}

/-- Where the two agreed, they agree; on `w` they agree in any case. -/
theorem Carries.agree (h : Carries s s' a' link queued w) (hz : w ≠ some z → link z = s.link z) :
    a'.link z = s'.link z := by
  obtain ⟨link', rfl, hw, hrest⟩ := h
  by_cases hwz : w = some z
  · exact hw z hwz
  · obtain ⟨h1, h2⟩ := hrest z hwz
    exact h1.trans ((hz hwz).trans h2.symm)

/-- The links of the other tasks stay. -/
theorem Carries.frame (h : Carries s s' a' link queued w) (hz : w ≠ some z) :
    s'.link z = s.link z := by
  obtain ⟨link', -, -, hrest⟩ := h
  exact (hrest z hz).2

/-- A step that writes no link. -/
theorem Carries.same (h : a' = s'.over link queued) (hlink : s'.link = s.link)
    (hw : ∀ z, w = some z → link z = s.link z) : Carries s s' a' link queued w :=
  ⟨link, h, fun z hz => (hw z hz).trans (congrFun hlink z).symm,
    fun z _ => ⟨rfl, congrFun hlink z⟩⟩

theorem Carries.quiet (h : a' = s'.over link queued) (hlink : s'.link = s.link) :
    Carries s s' a' link queued none :=
  .same h hlink fun _ hw => by cases hw

theorem over_task (h : link z = s.link z) : (s.over link queued).task z = s.task z := by
  show { s.task z with next := link z } = s.task z
  rw [h]
  rfl

variable [DecidableEq Θ] [DecidableEq T]

/-- The fields of a task are written, its link included. -/
theorem over_setTask (f : TaskBase (TaskId Θ T)) :
    (s.over link queued).setTask z f =
      (s.setTask z f).over (Function.update link z f.next) queued := by
  have htask : Function.update (s.over link queued).task z f =
      fun y => { Function.update s.task z f y with next := Function.update link z f.next y } := by
    funext y
    by_cases hy : y = z
    · subst hy
      simp
    · simp [hy, State.over]
  show { s.over link queued with task := Function.update (s.over link queued).task z f } = _
  rw [htask]
  rfl

/-- The state and the context of a task are written. -/
theorem over_setTask_keep {f : TaskBase (TaskId Θ T)} :
    (s.over link queued).setTask z { f with next := link z } =
      (s.setTask z f).over link queued := by
  rw [over_setTask, Function.update_eq_self]
  have htask : ∀ y, { (s.setTask z { f with next := link z }).task y with next := link y } =
      { (s.setTask z f).task y with next := link y } := by
    intro y
    by_cases hy : y = z
    · subst hy
      simp [State.setTask]
    · simp [State.setTask, hy]
  exact congrArg (fun f => ({ s with task := f, queued := queued } : State Θ T A)) (funext htask)

theorem link_setTask {f : TaskBase (TaskId Θ T)} (h : f.next = s.link z) :
    (s.setTask z f).link = s.link := by
  funext y
  by_cases hy : y = z
  · subst hy
    simpa [State.link, State.setTask] using h
  · simp [State.link, State.setTask, hy]

/-- A task is linked, and then carried on with. -/
theorem Carries.setTask {f : TaskBase (TaskId Θ T)}
    (h : Carries (s.setTask z f) s' a' (Function.update link z f.next) queued (some z)) :
    Carries s s' a' link queued (some z) := by
  obtain ⟨link', ha, hw, hrest⟩ := h
  refine ⟨link', ha, hw, fun y hy => ?_⟩
  obtain ⟨h1, h2⟩ := hrest y hy
  have hyz : y ≠ z := fun hyz => hy (hyz ▸ rfl)
  exact ⟨by simpa [hyz] using h1, by simpa [State.link, State.setTask, hyz] using h2⟩

/-- A task is linked, and the stack moves. -/
theorem Carries.setTask_same {f : TaskBase (TaskId Θ T)}
    (h : a' = s'.over (Function.update link z f.next) queued)
    (hlink : s'.link = (s.setTask z f).link) : Carries s s' a' link queued (some z) := by
  refine .setTask (.same h hlink fun y hy => ?_)
  cases hy
  simp [State.link, State.setTask]

omit [DecidableEq Θ] in
theorem over_enqueue (z : TaskId Θ T) :
    (s.over link queued).enqueue z = (s.enqueue z).over link (countPut queued (some z)) := by
  cases z <;> rfl

omit [DecidableEq Θ] in
theorem link_enqueue (z : TaskId Θ T) : (s.enqueue z).link = s.link := by
  cases z <;> rfl

/-! ## §2. The points of the scheduler. -/

theorem over_scheduleReturn :
    scheduleReturn (s.over link queued) x ret = (scheduleReturn s x ret).over link queued := by
  cases ret <;> rfl

theorem link_scheduleReturn : (scheduleReturn s x ret).link = s.link := by
  cases ret <;> rfl

theorem over_nextWaiting (taskList : Option (TaskId Θ T)) :
    nextWaiting (s.over link queued) x rel a none taskList =
      (nextWaiting s x rel a none taskList).over link queued := by
  cases taskList <;> rfl

theorem link_nextWaiting (taskList : Option (TaskId Θ T)) :
    (nextWaiting s x rel a none taskList).link = s.link := by
  cases taskList <;> rfl

/-- The delayed task is linked to those before it, or taken from them. -/
theorem over_nextWaiting_delayed {task : TaskId Θ T} (taskList : Option (TaskId Θ T))
    (htask : link task = s.link task) :
    Carries s (nextWaiting s x rel a (some task) taskList)
      (nextWaiting (s.over link queued) x rel a (some task) taskList) link queued (some task) := by
  have hw : ∀ z, some task = some z → link z = s.link z := by
    rintro z ⟨⟩
    exact htask
  cases taskList with
  | some next => exact .same rfl rfl hw
  | none =>
      have hf : (s.over link queued).task task = s.task task := over_task htask
      have hl : (s.over link queued).link task = s.link task := htask
      simp only [nextWaiting, hf, hl, over_setTask]
      exact .setTask_same rfl rfl

theorem over_scheduleStep {bg : Θ → Bool} {me : TaskId Θ T} {pc : SchedPc Θ T}
    (h : scheduleStep bg s θ x ret me pc = some s') :
    ∃ a', scheduleStep bg (s.over link queued) θ x ret me pc = some a' ∧
      Carries s s' a' link queued none := by
  cases pc with
  | native | waiting | futex =>
      injection h with h
      subst h
      exact ⟨_, rfl, .quiet rfl rfl⟩
  | queue => cases h
  | currentState next =>
      cases next <;>
      · injection h with h
        subst h
        exact ⟨_, rfl, .quiet rfl rfl⟩
  | running =>
      have hstate : ((s.over link queued).task me).state = (s.task me).state := rfl
      simp only [scheduleStep, hstate] at h ⊢
      split at h
      next hs =>
        injection h with h
        subst h
        rw [if_pos hs]
        exact ⟨_, rfl, .quiet over_scheduleReturn link_scheduleReturn⟩
      next hs =>
        injection h with h
        subst h
        rw [if_neg hs]
        exact ⟨_, rfl, .quiet rfl rfl⟩

theorem over_postJumpStep {me prev : TaskId Θ T} {fctx : Context (TaskId Θ T)} {pc : PostPc} :
    Carries s (postJumpStep s x ret me prev fctx pc)
      (postJumpStep (s.over link queued) x ret me prev fctx pc) link
      (countPut queued (Pc.postJump ret me prev fctx pc : Pc Θ T A).enqueueing) none := by
  cases pc with
  | clearCurrent =>
      refine .quiet ?_ (link_setTask rfl)
      exact congrArg (State.setPc · x _)
        (over_setTask_keep (f := { s.task me with context := .null }))
  | savePrev =>
      refine .quiet ?_ (link_setTask rfl)
      exact congrArg (State.setPc · x _)
        (over_setTask_keep (f := { s.task prev with context := fctx }))
  | prevState =>
      have hstate : ((s.over link queued).task prev).state = (s.task prev).state := rfl
      simp only [postJumpStep, hstate]
      split
      · exact .quiet rfl rfl
      · exact .quiet over_scheduleReturn link_scheduleReturn
  | enqueue =>
      refine .quiet ?_ (link_scheduleReturn.trans (link_enqueue prev))
      show scheduleReturn ((s.over link queued).enqueue prev) x ret = _
      rw [over_enqueue, over_scheduleReturn]
      rfl

/-- The first task of a taken list is unlinked. -/
theorem over_addStateStep {task : TaskId Θ T} {delayed : Option (TaskId Θ T)}
    (htask : link task = s.link task) :
    Carries s (addStateStep s x rel a task delayed)
      (addStateStep (s.over link queued) x rel a task delayed) link queued (some task) := by
  have hf : (s.over link queued).task task = s.task task := over_task htask
  have hl : (s.over link queued).link task = s.link task := htask
  simp only [addStateStep, hf, hl, over_setTask]
  exact .setTask_same rfl rfl

/-- The look at `m_context`; a delayed task is linked. -/
theorem over_addContextStep {task : TaskId Θ T} {taskList delayed : Option (TaskId Θ T)}
    (htask : link task = s.link task) :
    Carries s (addContextStep s x rel a taskList delayed task)
      (addContextStep (s.over link queued) x rel a taskList delayed task) link queued
      (some task) := by
  have hf : (s.over link queued).task task = s.task task := over_task htask
  simp only [addContextStep, hf]
  split
  next hnull =>
    rw [over_setTask]
    exact .setTask (over_nextWaiting_delayed taskList (by simp [State.link, State.setTask]))
  next =>
    refine .same rfl rfl ?_
    rintro z ⟨⟩
    exact htask

variable [DecidableEq A] {bg : Θ → Bool}

theorem over_switchStep {newTask : TaskId Θ T} (h : switchStep s θ x ret newTask = some s') :
    ∃ a', switchStep (s.over link queued) θ x ret newTask = some a' ∧
      Carries s s' a' link queued none := by
  have hcontext : ((s.over link queued).task newTask).context = (s.task newTask).context := rfl
  simp only [switchStep, hcontext] at h ⊢
  split at h
  next y hy =>
    injection h with h
    subst h
    exact ⟨_, rfl, .quiet rfl rfl⟩
  next => cases h

/-- The step of `insert_current_task_in_waitlist` reads and writes the link of
the current task. -/
theorem over_insertionStep {me : TaskId Θ T} {pc : InsertPc (TaskId Θ T)}
    (hme : link me = s.link me) :
    Carries s (insertionStep bg s θ x spurious a me pc)
      (insertionStep bg (s.over link queued) θ x spurious a me pc) link queued (some me) := by
  have htask : (s.over link queued).task me = s.task me := over_task hme
  simp only [insertionStep, htask]
  show Carries s _ _ _ _ _
  generalize hr : insertStep me spurious (s.aw a) (s.task me) pc = r
  have hr' : insertStep me spurious ((s.over link queued).aw a) (s.task me) pc = r := hr
  rw [hr']
  obtain ⟨data, f, next⟩ := r
  have hset : ((s.over link queued).setAw a data).setTask me f =
      ((s.setAw a data).setTask me f).over (Function.update link me f.next) queued :=
    over_setTask (s := s.setAw a data) f
  simp only [hset]
  -- every branch moves the stack only
  cases next with
  | goto pc' => exact .setTask_same rfl rfl
  | ret inserted =>
      cases inserted with
      | false => exact .setTask_same rfl rfl
      | true => exact .setTask_same rfl rfl

theorem over_releasingStep {pc : ReleasePc (TaskId Θ T)} :
    Carries s (releasingStep s x spurious rel a pc)
      (releasingStep (s.over link queued) x spurious rel a pc) link queued none := by
  simp only [releasingStep]
  generalize hr : releaseStep spurious (s.aw a) pc = r
  have hr' : releaseStep spurious ((s.over link queued).aw a) pc = r := hr
  rw [hr']
  obtain ⟨data, next⟩ := r
  cases next with
  | goto pc' => exact .quiet rfl rfl
  | ret => exact .quiet rfl rfl
  | pass taskList =>
      exact .quiet (over_nextWaiting (s := s.setAw a data) taskList)
        (link_nextWaiting (s := s.setAw a data) taskList)

/-! ## §3. Steps. -/

/-- **The accesses of a control point.** -/
theorem goStep_over (link : TaskId Θ T → Option (TaskId Θ T)) (queued : T → ℕ)
    (hloc : (s.pc x).Local x)
    (hw : ∀ z, (s.pc x).relinking = some z → link z = s.link z)
    (h : goStep bg s θ x spurious (s.pc x) = some s') :
    ∃ a', goStep bg (s.over link queued) θ x spurious (s.pc x) = some a' ∧
      Carries s s' a' link (countPut queued (s.pc x).enqueueing) (s.pc x).relinking := by
  cases hpc : s.pc x with
  -- points without an access of their own
  | unborn => rw [hpc] at h; cases h
  | start => rw [hpc] at h; cases h
  | suspended => rw [hpc] at h; cases h
  | user => rw [hpc] at h; cases h
  | unreachable => rw [hpc] at h; cases h
  | exited => rw [hpc] at h; cases h
  | insert a me pc =>
      rw [hpc] at h hw
      injection h with h
      exact ⟨_, rfl, h ▸ over_insertionStep (hw me rfl)⟩
  | waitRet | joinRet =>
      rw [hpc] at h
      injection h with h
      exact ⟨_, rfl, h ▸ .quiet rfl rfl⟩
  | joinState t =>
      rw [hpc] at h
      injection h with h
      exact ⟨_, rfl, h ▸ .quiet rfl rfl⟩
  | schedule ret me pc =>
      rw [hpc] at h
      exact over_scheduleStep h
  | switchTo ret new =>
      rw [hpc] at h
      exact over_switchStep h
  | postJump ret me prev fctx pc =>
      rw [hpc] at h
      injection h with h
      exact ⟨_, rfl, h ▸ over_postJumpStep⟩
  | release rel a pc =>
      rw [hpc] at h
      injection h with h
      exact ⟨_, rfl, h ▸ over_releasingStep⟩
  -- the passing on of a taken list
  | addState rel a z delayed =>
      rw [hpc] at h hw
      injection h with h
      exact ⟨_, rfl, h ▸ over_addStateStep (hw z rfl)⟩
  | addNotify rel a taskList delayed z =>
      rw [hpc] at h hloc
      injection h with h
      obtain ⟨-, rfl⟩ := hloc
      exact ⟨_, rfl, h ▸ .quiet (over_nextWaiting taskList) (link_nextWaiting taskList)⟩
  | addContext rel a taskList delayed z =>
      rw [hpc] at h hw
      injection h with h
      exact ⟨_, rfl, h ▸ over_addContextStep (hw z rfl)⟩
  | addEnqueue rel a taskList delayed z =>
      rw [hpc] at h hloc
      injection h with h
      obtain ⟨-, rfl, -⟩ := hloc
      refine ⟨_, rfl, h ▸ .quiet ?_ ((link_nextWaiting taskList).trans (link_enqueue z))⟩
      rw [over_enqueue]
      exact over_nextWaiting taskList
  | delayedContext => exact absurd hloc (by rw [hpc]; exact id)
  | delayedEnqueue => exact absurd hloc (by rw [hpc]; exact id)
  -- stores to a state, and the ends of tasks
  | finishState me =>
      rw [hpc] at h
      injection h with h
      refine ⟨_, rfl, h ▸ .quiet ?_ (link_setTask rfl)⟩
      exact congrArg (State.setPc · x _)
        (over_setTask_keep (f := { s.task me with state := .finished }))
  | exitState me =>
      rw [hpc] at h
      injection h with h
      refine ⟨_, rfl, h ▸ .quiet ?_ (link_setTask rfl)⟩
      exact congrArg (fun u => (State.setLife u me .destroyed).setPc x .exited)
        (over_setTask_keep (f := { s.task me with state := .finished }))
  | dtorState t =>
      have hstate : ((s.over link queued).task (.unbound t)).state =
        (s.task (.unbound t)).state := rfl
      rw [hpc] at h
      simp only [goStep, hstate] at h ⊢
      split at h
      next hs =>
        injection h with h
        rw [if_pos hs]
        exact ⟨_, rfl, h ▸ .quiet rfl rfl⟩
      next hs =>
        injection h with h
        rw [if_neg hs]
        exact ⟨_, rfl, h ▸ .quiet rfl rfl⟩
  | dtorContext t =>
      have hcontext : ((s.over link queued).task (.unbound t)).context =
        (s.task (.unbound t)).context := rfl
      rw [hpc] at h
      simp only [goStep, hcontext] at h ⊢
      split at h
      next hs =>
        injection h with h
        rw [if_pos hs]
        exact ⟨_, rfl, h ▸ .quiet rfl rfl⟩
      next hs =>
        injection h with h
        rw [if_neg hs]
        exact ⟨_, rfl, h ▸ .quiet rfl rfl⟩
  | dtorFree t =>
      rw [hpc] at h
      injection h with h
      exact ⟨_, rfl, h ▸ .quiet rfl rfl⟩

omit [DecidableEq A] in
/-- **The actions of the program.** -/
theorem actionStep_over (link : TaskId Θ T → Option (TaskId Θ T)) (queued : T → ℕ)
    {action : Action T A} (h : actionStep bg s θ x action = some s') :
    ∃ a', actionStep bg (s.over link queued) θ x action = some a' ∧
      Carries s s' a' link queued action.relinking := by
  cases action with
  | create t =>
      simp only [actionStep] at h
      split at h
      next => cases h
      next hguard =>
        injection h with h
        subst h
        have hguard' : ¬((x = .native θ ∧ bg θ = true) ∨
            (s.over link queued).life (.unbound t) ≠ .unborn) := hguard
        simp only [actionStep, if_neg hguard', over_setTask]
        exact ⟨_, rfl, .setTask_same rfl rfl⟩
  | finish =>
      cases x with
      | native θ' => cases h
      | unbound t =>
          injection h with h
          exact ⟨_, rfl, h ▸ .quiet rfl rfl⟩
  | exit =>
      cases x with
      | native θ' =>
          injection h with h
          exact ⟨_, rfl, h ▸ .quiet rfl rfl⟩
      | unbound t => cases h
  | yield =>
      injection h with h
      exact ⟨_, rfl, h ▸ .quiet rfl rfl⟩
  -- the guards do not read links
  | _ =>
      simp only [actionStep] at h ⊢
      split at h
      next => cases h
      next hguard =>
        injection h with h
        refine ⟨_, if_neg hguard, h ▸ .quiet rfl rfl⟩

omit [DecidableEq A] in
theorem over_dequeue (t : T) :
    (s.over link queued).dequeue t =
      s.over (Function.update link (.unbound t) none)
        (Function.update queued t (queued t - 1)) := by
  have htask : Function.update (s.over link queued).task (.unbound t)
      { (s.over link queued).task (.unbound t) with next := none } =
      fun y => { s.task y with next := Function.update link (.unbound t) none y } := by
    funext y
    by_cases hy : y = .unbound t
    · subst hy
      simp [State.over]
    · simp [hy, State.over]
  exact congrArg (fun f => ({ s with
    task := f
    queued := Function.update queued t (queued t - 1) } : State Θ T A)) htask

end Scheduler

end Alterstack
