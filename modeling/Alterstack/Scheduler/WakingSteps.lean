/-
  Alterstack.Scheduler.WakingSteps — `add_waiting_list_to_running` in the
  scheduler.

  The scheduler's model takes the accesses of a round of
  `add_waiting_list_to_running` to the links together with the ones next to
  them.  Each of its steps is a run of the call of `Alterstack.Waking.Code`
  that nobody interrupts.  And what the call relies on is so: in clean runs
  nobody sets the context of a task back to null that a stack passes on.

  Main results:
    * `call_start`, `call_step` — the steps of the scheduler are runs of the
      call;
    * `context_kept` — a saved context stays saved while the task is passed on.
-/
import Alterstack.Scheduler.Frames
import Alterstack.Scheduler.Exclusive
import Alterstack.Waking.Code

namespace Alterstack

namespace Scheduler

open Lib (Machine Layout)
open Awaitable (ReleasePc releaseStep)

variable {Θ T A : Type*}

/-! ## §1. Steps of the scheduler as runs of the call. -/

/-- The point of the call that a control point stands for. -/
def Pc.inCall : Pc Θ T A → Waking.Pc (TaskId Θ T)
  | .addState _ _ task delayed => .readNext task delayed
  | .addNotify _ _ taskList delayed task => .notify task taskList delayed
  | .addContext _ _ taskList delayed task => .loadContext task taskList delayed
  | .addEnqueue _ _ taskList delayed task => .enqueue task taskList delayed
  | .delayedContext _ _ delayed task => .whileContext task delayed
  | .delayedEnqueue _ _ delayed task => .delayedEnqueue task delayed
  | _ => .returned

/-- The call on the stack `x`. -/
def State.call (s : State Θ T A) (x : TaskId Θ T) (log : List (Waking.Event (TaskId Θ T))) :
    Waking.State (TaskId Θ T) where
  task := s.task
  pc := (s.pc x).inCall
  log := log

variable [DecidableEq Θ] [DecidableEq T]

/-- A run of the call without steps of others. -/
abbrev Uninterrupted (c c' : Waking.State (TaskId Θ T)) : Prop :=
  (Waking.machine TaskId.isThreadBound []).Run (fun _ label => label = .run) c c'

variable {s s' : State Θ T A} {θ : Θ} {x z : TaskId Θ T} {ret : ReleaseRet Θ T} {a : AwId Θ T A}
  {taskList delayed : Option (TaskId Θ T)} {log : List (Waking.Event (TaskId Θ T))}

omit [DecidableEq Θ] [DecidableEq T] in
@[simp] theorem inCall_releaseReturn : (releaseReturn (A := A) ret).inCall = .returned := by
  cases ret <;> rfl

omit [DecidableEq Θ] [DecidableEq T] in
theorem call_eq {p : Pc Θ T A} (hpc : s.pc x = p) : s.call x log = ⟨s.task, p.inCall, log⟩ := by
  rw [State.call, hpc]

theorem call_setPc {p : Pc Θ T A} : (s.setPc x p).call x log = ⟨s.task, p.inCall, log⟩ :=
  call_eq (by simp [State.setPc])

/-- The heads of the loops, and the first two accesses of the second one. -/
theorem call_nextWaiting {c : Waking.State (TaskId Θ T)} (htask : c.task = s.task)
    (hpc : c.pc = Waking.listLoop delayed taskList) :
    Uninterrupted c ((nextWaiting s x ret a delayed taskList).call x c.log) := by
  obtain ⟨task, pc, log⟩ := c
  obtain rfl : task = s.task := htask
  obtain rfl : pc = Waking.listLoop delayed taskList := hpc
  cases taskList with
  | some y =>
      simp only [nextWaiting, call_setPc]
      exact .refl _
  | none =>
      cases delayed with
      | none =>
          simp only [nextWaiting, call_setPc, inCall_releaseReturn]
          exact .refl _
      | some y =>
          simp only [nextWaiting, call_setPc]
          exact .tail (.tail (.refl _) rfl rfl) rfl rfl

/-- The hand-over of the list starts a call. -/
theorem call_start [DecidableEq A] {spurious : Bool} {pc : ReleasePc (TaskId Θ T)}
    (h : (releaseStep spurious (s.aw a) pc).2 = .pass taskList) :
    Uninterrupted ⟨s.task, Waking.listLoop none taskList, []⟩
      ((releasingStep s x spurious ret a pc).call x []) := by
  simp only [releasingStep, h]
  exact call_nextWaiting (c := ⟨s.task, Waking.listLoop none taskList, []⟩) rfl rfl

/-- **A step of the scheduler in `add_waiting_list_to_running`** is a run of
the call that nobody interrupts. -/
theorem call_step [DecidableEq A] {bg : Θ → Bool} {spurious : Bool}
    (hcall : (s.pc x).inCall ≠ .returned) (h : goStep bg s θ x spurious (s.pc x) = some s') :
    ∃ log', Uninterrupted (s.call x log) (s'.call x log') := by
  cases hpc : s.pc x with
  | addState ret a task delayed =>
      rw [hpc] at h
      injection h with h
      subst h
      refine ⟨log ++ [.stored task .running], ?_⟩
      simp only [addStateStep, call_setPc]
      rw [call_eq hpc]
      refine .tail (.tail (.tail (.refl _) rfl rfl) rfl rfl) rfl ?_
      cases hb : task.isThreadBound <;>
        simp [Waking.machine, Waking.step, Waking.runStep, Waking.State.setNext,
          Waking.State.setTask, Waking.State.goto, Waking.State.record, State.link,
          Waking.State.link, State.setTask, Pc.inCall, hb]
  | addNotify ret a taskList delayed task =>
      rw [hpc] at h
      injection h with h
      subst h
      have hstep : Uninterrupted (s.call x log)
          ⟨s.task, Waking.listLoop delayed taskList, log ++ [.notified task]⟩ := by
        rw [call_eq hpc]
        exact .tail (.refl _) rfl rfl
      exact ⟨_, hstep.trans (call_nextWaiting rfl rfl)⟩
  | addContext ret a taskList delayed task =>
      rw [hpc] at h
      injection h with h
      subst h
      by_cases hnull : (s.task task).context = .null
      · -- the task is delayed: two accesses, and the head of the loop
        have hlook : Uninterrupted (s.call x log)
            ⟨s.task, .delay task taskList delayed, log ++ [.delayed task]⟩ := by
          rw [call_eq hpc]
          refine .tail (.refl _) rfl ?_
          simp [Waking.machine, Waking.step, Waking.runStep, Pc.inCall, hnull, Waking.State.goto,
            Waking.State.record]
        have hstep : Uninterrupted (s.call x log)
            ⟨Function.update s.task task { s.task task with next := delayed },
              Waking.listLoop (some task) taskList, log ++ [.delayed task]⟩ :=
          .tail hlook rfl rfl
        simp only [addContextStep, if_pos hnull]
        exact ⟨_, hstep.trans (call_nextWaiting rfl rfl)⟩
      · refine ⟨log, ?_⟩
        simp only [addContextStep, if_neg hnull, call_setPc]
        rw [call_eq hpc]
        refine .tail (.refl _) rfl ?_
        simp [Waking.machine, Waking.step, Waking.runStep, Pc.inCall, hnull, Waking.State.goto]
  | addEnqueue ret a taskList delayed task =>
      rw [hpc] at h
      injection h with h
      subst h
      have hstep : Uninterrupted (s.call x log) ⟨s.task, Waking.listLoop delayed taskList,
          log ++ [.enqueued task (s.link task) (s.task task).context]⟩ := by
        rw [call_eq hpc]
        exact .tail (.refl _) rfl rfl
      exact ⟨_, hstep.trans (call_nextWaiting (by cases task <;> rfl) rfl)⟩
  | delayedContext ret a delayed task =>
      rw [hpc] at h
      injection h with h
      subst h
      refine ⟨log, ?_⟩
      by_cases hnull : (s.task task).context = .null
      · -- the scheduler's stack stays where it is
        simp only [delayedContextStep, if_pos hnull]
        exact .refl _
      · simp only [delayedContextStep, if_neg hnull, call_setPc]
        rw [call_eq hpc]
        refine .tail (.refl _) rfl ?_
        simp [Waking.machine, Waking.step, Waking.runStep, Pc.inCall, hnull, Waking.State.goto]
  | delayedEnqueue ret a delayed task =>
      rw [hpc] at h
      injection h with h
      subst h
      have hstep : Uninterrupted (s.call x log) ⟨s.task, Waking.listLoop delayed none,
          log ++ [.enqueued task (s.link task) (s.task task).context]⟩ := by
        rw [call_eq hpc]
        exact .tail (.refl _) rfl rfl
      exact ⟨_, hstep.trans (call_nextWaiting (by cases task <;> rfl) rfl)⟩
  | _ =>
      rw [hpc] at hcall
      exact absurd rfl hcall

/-! ## §2. Saved contexts stay saved. -/

omit [DecidableEq Θ] [DecidableEq T] in
/-- Only the task of the stack itself sets its context to null: inside
`insert_current_task_in_waitlist`, and when it goes on after a switch. -/
theorem Pc.self_of_clearing {p : Pc Θ T A} (hloc : p.Local x)
    (h : p.contextStore = some (z, .null)) :
    z = x ∧ (p.awake = true ∨ ∃ a aw, p = .insert a x (.setContext aw)) := by
  cases p with
  | insert a me pc =>
      obtain rfl : me = x := hloc
      cases pc with
      | setContext aw =>
          cases h
          exact ⟨rfl, .inr ⟨a, aw, rfl⟩⟩
      | _ => cases h
  | postJump ret me prev fctx pc =>
      obtain ⟨rfl, hfctx, -, -⟩ := hloc
      cases pc with
      | clearCurrent =>
          cases h
          exact ⟨rfl, .inl rfl⟩
      | savePrev =>
          -- what is saved is a continuation
          rw [hfctx] at h
          cases h
      | _ => cases h
  | _ => cases h

/-- **A saved context stays saved** while the task is in the list that a stack
has taken, or about to be enqueued by it. -/
theorem context_kept [DecidableEq A] {tok : T → Tok Θ T} {L : Layout (Place Θ T A) (TaskId Θ T)}
    {bg : Θ → Bool} {l : Label Θ T A} {y : TaskId Θ T} {t : T} (h : Inv IsUnbound s tok L)
    (ht : .unbound t ∈ L.at_ (.taken y) ∨ (s.pc y).ready = some (.unbound t))
    (hstep : step bg s l = some s') (hsaved : (s.task (.unbound t)).context ≠ .null) :
    (s'.task (.unbound t)).context ≠ .null := by
  intro hnull
  have hlisted : .unbound t ∈ L.at_ (.taken y) → (s.task (.unbound t)).state = .waiting := by
    intro hmem
    rcases h.lists.listed _ _ hmem with hw | ⟨-, hw⟩
    · exact hw
    · exact absurd rfl hw
  rcases step_context hstep (.unbound t) with hsame | hstore | ⟨u, hu, hlife⟩
  · exact hsaved (hsame ▸ hnull)
  · rw [hnull] at hstore
    obtain ⟨hx, hpoint⟩ := Pc.self_of_clearing (h.threads.locals (s.exec l.1)) hstore
    rcases ht with hmem | hready
    · rw [← hx] at hpoint
      rcases hpoint with hawake | ⟨a, aw, hpc⟩
      · have hrunning := h.awake.awake _ rfl hawake
        rw [hlisted hmem] at hrunning
        cases hrunning
      · have hinserting := h.lists.inserting (.unbound t)
        rw [hpc] at hinserting
        exact hinserting.2.1 _ hmem
    · exact (h.tokens.only_of_ready hready).2.1 l.1 hx.symm
  · cases hu
    have hunborn := h.life t hlife
    rcases ht with hmem | hready
    · have hrunning := (h.tokens.unborn t hunborn).1
      rw [hlisted hmem] at hrunning
      cases hrunning
    · exact (h.tokens.only_of_ready hready).2.2.2.1 hunborn

end Scheduler

end Alterstack
