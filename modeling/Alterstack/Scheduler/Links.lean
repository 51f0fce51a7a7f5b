/-
  Alterstack.Scheduler.Links — the link of a `Task` that is enqueued.

  `LockFreeStack::push` asserts that its item is in no list.  A task is linked
  when it inserts itself into a wait list, and unlinked by the releaser.  An
  insertion that fails because the Awaitable is finished sets the state back
  and leaves the link where it is; when that task is switched out while it is
  Running, `post_jump_fcontext` enqueues it linked.

  Main results:
    * `step_next` — what a step does to the links;
    * `enqueued_linked` — a clean run that enqueues a linked task;
    * `enqueued_unlinked` — in clean runs whose failed insertions have found no
      other waiter, every task is enqueued unlinked.
-/
import Alterstack.Scheduler.Frames
import Alterstack.Scheduler.Exclusive

namespace Alterstack

namespace Scheduler

open Lib (Machine Layout)
open Awaitable (InsertPc InsertNext insertStep ReleasePc ReleaseNext releaseStep)
open OsThread

variable {Θ T A : Type*}

/-! ## §1. What a step does to the links. -/

namespace Pc

/-- The task that inserts itself before the head it has read. -/
def linking : Pc Θ T A → Option (TaskId Θ T)
  | .insert _ currentTask (.setContext _) | .insert _ currentTask (.cas _) => some currentTask
  | _ => none

/-- The task that is delayed if its `m_context` is null. -/
def delaying : Pc Θ T A → Option (TaskId Θ T)
  | .addContext _ _ _ _ task => some task
  | _ => none

/-- The task whose insertion has failed and whose state is to be set back. -/
def failing : Pc Θ T A → Option (TaskId Θ T)
  | .insert _ currentTask .undoState => some currentTask
  | _ => none

end Pc

variable [DecidableEq Θ] [DecidableEq T]

/-- What a step of the stack `x` does to the link of `z`. -/
inductive NextStep (s s' : State Θ T A) (x z : TaskId Θ T) : Prop
  | same (h : (s'.task z).next = (s.task z).next)
  | cleared (h : (s'.task z).next = none)
  | linked (h : (s.pc x).linking = some z)
  | delayed (h : (s.pc x).delaying = some z) (hnull : (s.task z).context = .null)

variable {s s' : State Θ T A} {θ : Θ} {x y z : TaskId Θ T} {p : Pc Θ T A} {spurious : Bool}
  {ret : SchedRet Θ T A} {rel : ReleaseRet Θ T} {a : AwId Θ T A} {bg : Θ → Bool}
  {l : Label Θ T A} {W : TaskId Θ T → Prop}

namespace NextStep

/-- The fields of one task are written, and a stack moves. -/
theorem setTask {w : TaskId Θ T} {f : TaskBase (TaskId Θ T)}
    (h : f.next = (s.task w).next ∨ f.next = none) :
    NextStep s ((s.setTask w f).setPc x p) x z := by
  by_cases hz : z = w
  · subst hz
    rcases h with h | h
    · exact .same (by simpa [State.setTask, State.setPc] using h)
    · exact .cleared (by simpa [State.setTask, State.setPc] using h)
  · exact .same (by simp [State.setTask, State.setPc, hz])

theorem scheduleReturn : NextStep s (scheduleReturn s x ret) x z := by
  cases ret <;> exact .same rfl

/-- The loops of `add_waiting_list_to_running` unlink a delayed task or nobody. -/
theorem nextWaiting (delayed taskList : Option (TaskId Θ T)) :
    NextStep s (nextWaiting s x rel a delayed taskList) x z := by
  cases taskList with
  | some task => exact .same rfl
  | none =>
      cases delayed with
      | none => exact .same rfl
      | some task => exact .setTask (.inr rfl)

omit [DecidableEq Θ] [DecidableEq T] in
/-- A step after writes that do not show in the fields of `z`. -/
theorem after {u : State Θ T A} (h : NextStep u s' x z) (hpc : u.pc x = s.pc x)
    (hz : u.task z = s.task z) : NextStep s s' x z := by
  cases h with
  | same h => exact .same (hz ▸ h)
  | cleared h => exact .cleared h
  | linked h => exact .linked (hpc ▸ h)
  | delayed h hnull => exact .delayed (hpc ▸ h) (hz ▸ hnull)

omit [DecidableEq Θ] in
theorem enqueue {w : TaskId Θ T} (h : NextStep (s.enqueue w) s' x z) : NextStep s s' x z := by
  cases w with
  | native θ' => exact h
  | unbound t => exact h.after rfl rfl

end NextStep

theorem nextStep_schedule {me : TaskId Θ T} {pc : SchedPc Θ T}
    (h : scheduleStep bg s θ x ret me pc = some s') : NextStep s s' x z := by
  cases pc with
  | native | waiting | futex =>
      injection h with h
      exact h ▸ .same rfl
  | queue => cases h
  | currentState next =>
      cases next <;>
      · injection h with h
        exact h ▸ .same rfl
  | running =>
      simp only [scheduleStep] at h
      split at h <;> injection h with h <;> subst h
      · exact .scheduleReturn
      · exact .same rfl

theorem nextStep_postJump {me prev : TaskId Θ T} {fctx : Context (TaskId Θ T)} {pc : PostPc} :
    NextStep s (postJumpStep s x ret me prev fctx pc) x z := by
  cases pc with
  | clearCurrent | savePrev => exact .setTask (.inl rfl)
  | prevState =>
      simp only [postJumpStep]
      split
      · exact .same rfl
      · exact .scheduleReturn
  | enqueue => exact .enqueue .scheduleReturn

variable [DecidableEq A]

theorem nextStep_insertion {me : TaskId Θ T} {pc : InsertPc (TaskId Θ T)}
    (hpc : s.pc x = .insert a me pc) :
    NextStep s (insertionStep bg s θ x spurious a me pc) x z := by
  by_cases hz : z = me
  · subst hz
    cases pc with
    | setContext aw | cas aw => exact .linked (by rw [hpc]; rfl)
    | load | setState aw | undoState | undoContext =>
        refine .same ?_
        unfold insertionStep
        dsimp only
        split <;> simp [State.setTask, State.setAw, State.setPc, Scheduler.schedule, insertStep]
  · refine .same ?_
    unfold insertionStep
    dsimp only
    split <;> simp [State.setTask, State.setAw, State.setPc, Scheduler.schedule, hz]

theorem nextStep_releasing {pc : ReleasePc (TaskId Θ T)} :
    NextStep s (releasingStep s x spurious rel a pc) x z := by
  unfold releasingStep
  dsimp only
  split
  next => exact .same rfl
  next => exact .same rfl
  next taskList _ =>
    exact NextStep.after (u := s.setAw a _) (.nextWaiting none taskList) rfl rfl

omit [DecidableEq A] in
theorem nextStep_addContext {taskList delayed : Option (TaskId Θ T)} {w : TaskId Θ T}
    (hpc : s.pc x = .addContext rel a taskList delayed w) :
    NextStep s (addContextStep s x rel a taskList delayed w) x z := by
  unfold addContextStep
  split
  next hnull =>
    by_cases hz : z = w
    · subst hz
      exact .delayed (by rw [hpc]; rfl) hnull
    · exact .after (u := s.setTask w _) (.nextWaiting (some w) taskList) rfl
        (by simp [State.setTask, hz])
  next => exact .same rfl

theorem nextStep_go (h : goStep bg s θ x spurious (s.pc x) = some s') : NextStep s s' x z := by
  cases hpc : s.pc x with
  | unborn | start | suspended | user | unreachable | exited =>
      rw [hpc] at h
      cases h
  | switchTo ret new =>
      rw [hpc] at h
      obtain ⟨y, -, -, htask, -⟩ := switchStep_cases h
      exact .same (by rw [htask])
  | insert a me pc =>
      rw [hpc] at h
      injection h with h
      exact h ▸ nextStep_insertion hpc
  | schedule ret me pc =>
      rw [hpc] at h
      exact nextStep_schedule h
  | postJump ret me prev fctx pc =>
      rw [hpc] at h
      injection h with h
      exact h ▸ nextStep_postJump
  | release rel a pc =>
      rw [hpc] at h
      injection h with h
      exact h ▸ nextStep_releasing
  -- `add_waiting_list_to_running` unlinks the task it makes Running
  | addState rel a w delayed =>
      rw [hpc] at h
      injection h with h
      exact h ▸ .setTask (.inr rfl)
  | addNotify rel a taskList delayed w =>
      rw [hpc] at h
      injection h with h
      exact h ▸ .nextWaiting delayed taskList
  | addContext rel a taskList delayed w =>
      rw [hpc] at h
      injection h with h
      exact h ▸ nextStep_addContext hpc
  | addEnqueue rel a taskList delayed w =>
      rw [hpc] at h
      injection h with h
      exact h ▸ .enqueue (.nextWaiting delayed taskList)
  | delayedEnqueue rel a delayed w =>
      rw [hpc] at h
      injection h with h
      exact h ▸ .enqueue (.nextWaiting delayed none)
  | delayedContext rel a delayed w =>
      rw [hpc] at h
      injection h with h
      subst h
      unfold delayedContextStep
      split <;> exact .same rfl
  | finishState me =>
      rw [hpc] at h
      injection h with h
      exact h ▸ .setTask (.inl rfl)
  | exitState me =>
      rw [hpc] at h
      injection h with h
      subst h
      have hset : NextStep (s.setLife me .destroyed) (((s.setLife me .destroyed).setTask me
          { s.task me with state := .finished }).setPc x .exited) x z := .setTask (.inl rfl)
      exact hset.after rfl rfl
  -- points that write no link
  | waitRet a b | joinRet t | joinState t | dtorFree t =>
      rw [hpc] at h
      injection h with h
      exact h ▸ .same rfl
  | dtorState t | dtorContext t =>
      rw [hpc] at h
      simp only [goStep] at h
      split at h <;> injection h with h <;> subst h <;> exact .same rfl

omit [DecidableEq A] in
/-- What the queue returns is unlinked. -/
theorem nextStep_pick {me : TaskId Θ T} {t : Option T} (h : pickStep s x ret me t = some s') :
    NextStep s s' x z := by
  cases t with
  | none =>
      injection h with h
      exact h ▸ .same rfl
  | some t =>
      simp only [pickStep, Option.ite_none_right_eq_some] at h
      obtain ⟨-, h⟩ := h
      injection h with h
      subst h
      by_cases hz : z = .unbound t
      · subst hz
        exact .cleared (by simp [State.setPc, State.dequeue])
      · exact .same (by simp [State.setPc, State.dequeue, hz])

omit [DecidableEq A] in
/-- A task is constructed unlinked. -/
theorem nextStep_action {action : Action T A} (hpc : s.pc x = .user)
    (h : actionStep bg s θ x action = some s') : NextStep s s' x z := by
  obtain ⟨p', hact⟩ := acts_of_actionStep hpc h
  rcases hact.task z with hz | ⟨t, rfl, rfl, -⟩
  · exact .same (by rw [hz])
  · simp only [actionStep] at h
    split at h
    next => cases h
    next =>
      injection h with h
      subst h
      exact .cleared (by simp [State.setPc, State.setLife, State.setTask])

/-- **What a step does to the links**: the executed task links itself, a
releaser delays a task whose context is null, all other stores are of null. -/
theorem step_next (h : step bg s l = some s') (z : TaskId Θ T) :
    NextStep s s' (s.exec l.1) z := by
  obtain ⟨θ, c⟩ := l
  cases c with
  | go spurious => exact nextStep_go (by simpa only [step] using h)
  | pick t =>
      cases hpc : s.pc (s.exec θ) with
      | schedule ret me pc =>
          simp only [step, hpc] at h
          cases pc with
          | queue => exact nextStep_pick h
          | _ => cases h
      | _ =>
          simp only [step, hpc] at h
          cases h
  | act action =>
      cases hpc : s.pc (s.exec θ) with
      | user =>
          simp only [step, hpc] at h
          exact nextStep_action hpc h
      | _ =>
          simp only [step, hpc] at h
          cases h

/-- A releaser unlinks the task that it makes Running. -/
theorem next_of_waking (h : step bg s l = some s') (hz : (s.pc (s.exec l.1)).waking = some z) :
    (s'.task z).next = none := by
  obtain ⟨θ, c⟩ := l
  cases hpc : s.pc (s.exec θ) with
  | addState rel a task delayed =>
      rw [hpc] at hz
      injection hz with hz
      subst hz
      cases c with
      | go spurious =>
          simp only [step, hpc, goStep] at h
          injection h with h
          subst h
          simp [addStateStep, State.setTask, State.setPc]
      | pick t | act action =>
          simp only [step, hpc] at h
          cases h
  | _ =>
      rw [hpc] at hz
      cases hz

/-! ## §2. Tasks that do not wait are unlinked. -/

/-- An insertion of a `Task` that fails has found no other waiter. -/
def FailsUnlinked (s : State Θ T A) (l : Label Θ T A) : Prop :=
  ∀ x ∈ (s.pc (s.exec l.1)).failing, x.isThreadBound = false → (s.task x).next = none

/-- The invariant: a `Task` is linked only while it is Waiting. -/
def Unlinked (s : State Θ T A) : Prop :=
  ∀ t, (s.task (.unbound t)).state ≠ .waiting → (s.task (.unbound t)).next = none

omit [DecidableEq Θ] [DecidableEq T] [DecidableEq A] in
/-- A task links itself while it is Waiting, and goes on so. -/
theorem Inv.waiting_of_linking {tok : T → Tok Θ T} {L : Layout (Place Θ T A) (TaskId Θ T)}
    (h : Inv W s tok L) (hz : (s.pc x).linking = some z) :
    (s.task z).state = .waiting ∧ s.pc z ≠ .unborn ∧ (s.pc x).stateStore = none := by
  have hloc := h.threads.locals x
  have hins := h.lists.inserting x
  cases hpc : s.pc x with
  | insert a me pc =>
      rw [hpc] at hz hloc hins
      obtain rfl : me = x := hloc
      cases pc with
      | setContext aw | cas aw =>
          injection hz with hz
          subst hz
          exact ⟨hins.1, by rw [hpc]; nofun, rfl⟩
      | _ => cases hz
  | _ =>
      rw [hpc] at hz
      cases hz

/-- In clean runs a link is only written while the task is Waiting; a releaser
has nobody to delay. -/
theorem next_of_not_waiting (h : Good IsUnbound s) (hstep : step bg s l = some s') {t : T}
    (hw : (s'.task (.unbound t)).state ≠ .waiting) :
    (s'.task (.unbound t)).next = (s.task (.unbound t)).next ∨
      (s'.task (.unbound t)).next = none := by
  obtain ⟨tok, L, h⟩ := h
  cases step_next hstep (.unbound t) with
  | same h => exact .inl h
  | cleared h => exact .inr h
  | linked hl =>
      obtain ⟨hwaiting, hborn, hstore⟩ := h.waiting_of_linking hl
      rcases step_state hstep (.unbound t) with hs | hs | ⟨u, hu, hlife, -⟩
      · exact absurd (hs.trans hwaiting) hw
      · rw [hstore] at hs
        cases hs
      · exact absurd (h.life t hlife) hborn
  | delayed hd hnull =>
      have hready : (s.pc (s.exec l.1)).ready = some (.unbound t) := by
        cases hpc : s.pc (s.exec l.1) with
        | addContext ret a taskList delayed task =>
            rw [hpc] at hd
            exact hd
        | _ =>
            rw [hpc] at hd
            cases hd
      rw [h.context_of_ready hready] at hnull
      cases hnull

theorem unlinked_step (h : Good IsUnbound s) (hs : Unlinked s) (hok : FailsUnlinked s l)
    (hstep : step bg s l = some s') : Unlinked s' := by
  intro t hw
  rcases next_of_not_waiting h hstep hw with hnext | hnext
  · by_cases hwaiting : (s.task (.unbound t)).state = .waiting
    · -- the task stops waiting: its insertion has failed, or it is released
      obtain ⟨tok, L, h⟩ := h
      rcases step_state hstep (.unbound t) with hstate | hstore | ⟨u, hu, hlife, -⟩
      · exact absurd (hstate.trans hwaiting) hw
      · have hloc := h.threads.locals (s.exec l.1)
        cases hpc : s.pc (s.exec l.1) with
        | insert a me pc =>
            rw [hpc] at hstore
            cases pc with
            | setState aw =>
                injection hstore with hstore
                exact absurd (congrArg Prod.snd hstore).symm hw
            | undoState =>
                injection hstore with hstore
                rw [hnext]
                refine hok _ ?_ rfl
                rw [hpc]
                exact congrArg (fun p => some p.1) hstore
            | _ => cases hstore
        | addState ret a task delayed =>
            rw [hpc] at hstore
            injection hstore with hstore
            refine next_of_waking hstep ?_
            rw [hpc]
            exact congrArg (fun p => some p.1) hstore
        | finishState me =>
            rw [hpc] at hstore hloc
            injection hstore with hstore
            obtain rfl : me = .unbound t := congrArg Prod.fst hstore
            have := h.awake.awake (.unbound t) rfl (by rw [hloc.1, hpc]; rfl)
            rw [hwaiting] at this
            cases this
        | exitState me =>
            rw [hpc] at hstore hloc
            injection hstore with hstore
            obtain rfl : me = .unbound t := congrArg Prod.fst hstore
            obtain ⟨hme, hbound⟩ := hloc
            rw [← hme] at hbound
            cases hbound
        | _ =>
            rw [hpc] at hstore
            cases hstore
      · have := (h.tokens.unborn t (h.life t hlife)).1
        rw [hwaiting] at this
        cases this
    · rw [hnext]
      exact hs t hwaiting
  · exact hnext

/-! ## §3. Every task is enqueued unlinked. -/

/-- A clean step that does not set back a linked `Task`. -/
structure CleanFailure (s : State Θ T A) (l : Label Θ T A) : Prop where
  clean : Clean s l
  unlinked : FailsUnlinked s l

instance [Fintype Θ] [Fintype T] (s : State Θ T A) (l : Label Θ T A) :
    Decidable (CleanFailure s l) :=
  decidable_of_iff (Clean s l ∧ ∀ x ∈ (s.pc (s.exec l.1)).failing,
    x.isThreadBound = false → (s.task x).next = none) ⟨fun h => ⟨h.1, h.2⟩, fun h => ⟨h.1, h.2⟩⟩

/-- The assertion of `LockFreeStack::push` for every task that is about to be
enqueued. -/
def EnqueuesUnlinked (s : State Θ T A) : Prop :=
  ∀ y z, (s.pc y).enqueueing = some z → (s.task z).next = none

omit [DecidableEq Θ] [DecidableEq T] [DecidableEq A] in
theorem Pc.unbound_of_enqueueing (hloc : p.Local x) (h : p.enqueueing = some z) :
    z.isThreadBound = false := by
  cases p with
  | postJump ret me prev fctx pc =>
      cases pc with
      | enqueue =>
          injection h with h
          subst h
          exact hloc.2.2.2 rfl
      | _ => cases h
  | addEnqueue ret a taskList delayed task =>
      injection h with h
      subst h
      exact hloc.2.2
  | delayedEnqueue => exact hloc.elim
  | _ => cases h

theorem unlinked_reach (h : (machine T A bg).Reach CleanFailure s) :
    Good IsUnbound s ∧ Unlinked s := by
  refine h.invariant (I := fun s => Good IsUnbound s ∧ Unlinked s) ?_ ?_
  · rintro s rfl
    exact ⟨inv_init, fun _ _ => rfl⟩
  · rintro s l u ⟨hgood, hs⟩ hok hstep
    exact ⟨inv_step (fun _ => rfl) hgood hok.clean.orderly hstep,
      unlinked_step hgood hs hok.unlinked hstep⟩

/-- **Every task is enqueued unlinked.** -/
theorem enqueued_unlinked (h : (machine T A bg).Reach CleanFailure s) : EnqueuesUnlinked s := by
  intro y z hy
  obtain ⟨⟨tok, L, hinv⟩, hs⟩ := unlinked_reach h
  have hready : (s.pc y).ready = some z := Pc.ready_of_enqueueing (hinv.threads.locals y) hy
  cases z with
  | native θ =>
      have := Pc.unbound_of_enqueueing (hinv.threads.locals y) hy
      cases this
  | unbound t =>
      refine hs t ?_
      have := (hinv.tokens.only_of_ready hready).2.2.2.2
      rw [this]
      nofun

/-- A task alone waits and fails, and yields. -/
def failsAlone : List (Label OsThread Unit Unit) :=
  (main, .act (.create ())) :: goes main 4 ++ (main, .act (.wait ())) :: goes main 3 ++
    (second, .act (.release ())) :: goes second 2 ++ goes main 4 ++
    (main, .act .yield) :: goes main 6

theorem enqueued_unlinked_failsAlone :
    ∃ s : State OsThread Unit Unit, (machine Unit Unit fun _ => false).Reach CleanFailure s ∧
      (s.pc (.native main)).enqueueing = some (.unbound ()) ∧
      (s.task (.unbound ())).next = none := by
  obtain ⟨s, hs, hp⟩ := Machine.exists_reach_of_replayOk
    (machine Unit Unit fun _ : OsThread => false) CleanFailure failsAlone
    (fun s => (s.pc (.native main)).enqueueing == some (.unbound ())) rfl (by decide +kernel)
  have henq : (s.pc (.native main)).enqueueing = some (.unbound ()) := by simpa using hp
  exact ⟨s, hs, henq, enqueued_unlinked hs _ _ henq⟩

/-! ## §4. A failed insertion behind another waiter. -/

/-- The main thread waits; the task inserts itself before it, and then both
learn that the Awaitable is released.  The task yields to the main thread. -/
def failsBehindWaiter : List (Label OsThread Unit Unit) :=
  (main, .act (.create ())) :: goes main 4 ++ (main, .act .yield) :: goes main 7 ++
    (main, .act (.wait ())) :: goes main 4 ++ (main, .pick (some ())) :: goes main 4 ++
    (main, .act (.wait ())) :: goes main 3 ++ (second, .act (.release ())) :: goes second 3 ++
    goes main 4 ++ (main, .act .yield) :: goes main 6

/-- **A clean run that enqueues a linked task.** -/
theorem enqueued_linked : ∃ s : State OsThread Unit Unit,
    (machine Unit Unit fun _ => false).Reach Clean s ∧
      (s.pc (.native main)).enqueueing = some (.unbound ()) ∧
      (s.task (.unbound ())).next = some (.native main) ∧ ¬ EnqueuesUnlinked s := by
  obtain ⟨s, hs, hp⟩ := Machine.exists_reach_of_replayOk
    (machine Unit Unit fun _ : OsThread => false) Clean failsBehindWaiter
    (fun s => (s.pc (.native main)).enqueueing == some (.unbound ()) &&
      (s.task (.unbound ())).next == some (.native main)) rfl (by decide +kernel)
  simp only [Bool.and_eq_true, beq_iff_eq] at hp
  obtain ⟨henq, hnext⟩ := hp
  refine ⟨s, hs, henq, hnext, fun h => ?_⟩
  rw [h _ _ henq] at hnext
  cases hnext

end Scheduler

end Alterstack
