/-
  Alterstack.Scheduler.Blocking — who waits on `native_futex`.

  The loop of `do_schedule` waits on the futex of its thread when it finds no
  task to switch to and the current task is Waiting; the comment there says that
  only the native task of a Common thread comes so far.  A `Task` does not, as
  `awake_of_clean` says.  The native task of a BgThread does not either: it only
  schedules and ends, so it is never Waiting, and `do_schedule` returns.

  Main results:
    * `onBgThread_goStep` — the accesses of the native task of a BgThread;
    * `blocks_of_clean` — in clean runs the comment is right.
-/
import Alterstack.Scheduler.Sleepless

namespace Alterstack

namespace Scheduler

open Lib (Layout)

variable {Θ T A : Type*}

/-! ## §1. The native task of a BgThread. -/

/-- Points on the stack of the native task of a BgThread: the code of the
program, `Task::yield` up to the futex, and the end of the thread. -/
def Pc.onBgThread : Pc Θ T A → Bool
  | .schedule .yield _ .waiting | .schedule .yield _ .futex => false
  | .user | .schedule .yield _ _ | .switchTo .yield _ | .suspended .yield _
  | .postJump .yield _ _ _ _ | .release (.exit _) _ _ | .addState (.exit _) _ _ _
  | .addNotify (.exit _) _ _ _ _ | .addContext (.exit _) _ _ _ _ | .addEnqueue (.exit _) _ _ _ _
  | .delayedContext (.exit _) _ _ _ | .delayedEnqueue (.exit _) _ _ _ | .exitState _
  | .exited => true
  | _ => false

/-- A stack that is jumped to goes on where it was suspended. -/
theorem onBgThread_resumed (newTask prevTask : TaskId Θ T) (fctx : Context (TaskId Θ T))
    {p : Pc Θ T A} (h : p.onBgThread = true) :
    (resumed newTask prevTask fctx p).onBgThread = true := by
  cases p with
  | suspended ret oldTask =>
      cases ret with
      | yield => rfl
      | _ => cases h
  | start => cases h
  | _ => exact h

variable [DecidableEq Θ] [DecidableEq T] {s s' : State Θ T A} {θ : Θ} {x : TaskId Θ T}
  {bg : Θ → Bool} {p : Pc Θ T A} {spurious : Bool}

omit [DecidableEq Θ] [DecidableEq T] in
theorem onBgThread_head (me : TaskId Θ T) :
    (.schedule .yield me (nextTaskPc bg θ me) : Pc Θ T A).onBgThread = true := by
  unfold nextTaskPc
  split
  · rfl
  · split <;> rfl

/-- `do_schedule` returns to the program. -/
theorem onBgThread_scheduleReturn :
    ((scheduleReturn s x (.yield : SchedRet Θ T A)).pc x).onBgThread = true := by
  show ((s.setPc x .user).pc x).onBgThread = true
  rw [setPc_pc_self]
  rfl

theorem onBgThread_nextWaiting (this : TaskId Θ T) (a : AwId Θ T A)
    (delayed taskList : Option (TaskId Θ T)) :
    ((nextWaiting s x (.exit this) a delayed taskList).pc x).onBgThread = true := by
  cases taskList with
  | some task =>
      simp only [nextWaiting, setPc_pc_self]
      rfl
  | none =>
      cases delayed with
      | some task =>
          simp only [nextWaiting, setPc_pc_self]
          rfl
      | none =>
          simp only [nextWaiting, setPc_pc_self]
          rfl

theorem onBgThread_scheduleStep {me : TaskId Θ T} {pc : SchedPc Θ T}
    (hp : (.schedule .yield me pc : Pc Θ T A).onBgThread = true)
    (hrunning : (s.task me).state = .running)
    (h : scheduleStep bg s θ x .yield me pc = some s') : (s'.pc x).onBgThread = true := by
  cases pc with
  | queue => cases h
  | waiting => cases hp
  | futex => cases hp
  | native =>
      injection h with h
      rw [← h, setPc_pc_self]
      split <;> rfl
  | currentState nextTask =>
      cases nextTask with
      | some task =>
          injection h with h
          rw [← h, setPc_pc_self]
          rfl
      | none =>
          injection h with h
          rw [← h, setPc_pc_self]
          split <;> rfl
  -- the task is Running, so `do_schedule` returns
  | running =>
      simp only [scheduleStep, if_pos hrunning, Option.some.injEq] at h
      rw [← h]
      exact onBgThread_scheduleReturn

theorem onBgThread_postJumpStep (me prev : TaskId Θ T) (fctx : Context (TaskId Θ T))
    (pc : PostPc) : ((postJumpStep s x .yield me prev fctx pc).pc x).onBgThread = true := by
  cases pc with
  | clearCurrent =>
      simp only [postJumpStep, setPc_pc_self]
      rfl
  | savePrev =>
      simp only [postJumpStep, setPc_pc_self]
      rfl
  | prevState =>
      simp only [postJumpStep]
      split
      · rw [setPc_pc_self]
        rfl
      · exact onBgThread_scheduleReturn
  | enqueue => exact onBgThread_scheduleReturn

variable [DecidableEq A] {l : Label Θ T A} {action : Action T A}

/-- **The accesses of the native task of a BgThread**, the switch apart. -/
theorem onBgThread_goStep (hpc : s.pc x = p) (hp : p.onBgThread = true)
    (hrunning : ∀ ret me pc, p = .schedule ret me pc → (s.task me).state = .running)
    (hjump : ∀ ret new, p ≠ .switchTo ret new) (h : goStep bg s θ x spurious p = some s') :
    (s'.pc x).onBgThread = true := by
  cases p with
  | user | exited => cases h
  | schedule ret me pc =>
      cases ret with
      | yield => exact onBgThread_scheduleStep hp (hrunning _ me pc rfl) h
      | _ => cases hp
  | switchTo ret new => exact absurd rfl (hjump ret new)
  | suspended ret oldTask => cases h
  | postJump ret me prev fctx pc =>
      cases ret with
      | yield =>
          injection h with h
          rw [← h]
          exact onBgThread_postJumpStep me prev fctx pc
      | _ => cases hp
  | release rel a pc =>
      cases rel with
      | exit this =>
          injection h with h
          rw [← h]
          simp only [releasingStep]
          split
          · rw [setPc_pc_self]
            rfl
          · rw [setPc_pc_self]
            rfl
          · exact onBgThread_nextWaiting this a none _
      | _ => cases hp
  | addState rel a task delayed =>
      cases rel with
      | exit this =>
          injection h with h
          rw [← h, addStateStep, setPc_pc_self]
          split <;> rfl
      | _ => cases hp
  | addNotify rel a taskList delayed task =>
      cases rel with
      | exit this =>
          injection h with h
          rw [← h]
          exact onBgThread_nextWaiting this a delayed taskList
      | _ => cases hp
  | addContext rel a taskList delayed task =>
      cases rel with
      | exit this =>
          injection h with h
          rw [← h]
          unfold addContextStep
          split
          · exact onBgThread_nextWaiting this a (some task) taskList
          · rw [setPc_pc_self]
            rfl
      | _ => cases hp
  | addEnqueue rel a taskList delayed task =>
      cases rel with
      | exit this =>
          injection h with h
          rw [← h]
          exact onBgThread_nextWaiting this a delayed taskList
      | _ => cases hp
  | delayedContext rel a delayed task =>
      cases rel with
      | exit this =>
          injection h with h
          rw [← h]
          unfold delayedContextStep
          split
          · rw [hpc]
            exact hp
          · rw [setPc_pc_self]
            rfl
      | _ => cases hp
  | delayedEnqueue rel a delayed task =>
      cases rel with
      | exit this =>
          injection h with h
          rw [← h]
          exact onBgThread_nextWaiting this a delayed none
      | _ => cases hp
  | exitState this =>
      injection h with h
      rw [← h, setPc_pc_self]
      rfl
  | _ => cases hp

omit [DecidableEq A] in
/-- The program on it yields or ends the thread. -/
theorem onBgThread_actionStep (hbg : bg θ = true)
    (h : actionStep bg s θ (.native θ) action = some s') :
    (s'.pc (.native θ)).onBgThread = true := by
  cases action with
  | yield =>
      injection h with h
      rw [← h, schedule, setPc_pc_self]
      exact onBgThread_head _
  | exit =>
      injection h with h
      rw [← h, setPc_pc_self]
      rfl
  | finish => cases h
  | wait a => simp [actionStep, hbg] at h
  | release a => simp [actionStep, hbg] at h
  | join t => simp [actionStep, hbg] at h
  | create t => simp [actionStep, hbg] at h
  | destroy t => simp [actionStep, hbg] at h

omit [DecidableEq A] in
theorem onBgThread_pickStep {ret : SchedRet Θ T A} {me : TaskId Θ T} {t : Option T}
    (hp : (.schedule ret me .queue : Pc Θ T A).onBgThread = true)
    (h : pickStep s x ret me t = some s') : (s'.pc x).onBgThread = true := by
  cases ret with
  | yield =>
      cases t with
      | none =>
          injection h with h
          rw [← h, setPc_pc_self]
          split <;> rfl
      | some t =>
          simp only [pickStep] at h
          split at h
          · injection h with h
            rw [← h, setPc_pc_self]
            split <;> rfl
          · cases h
  | _ => cases hp

theorem onBgThread_switchStep {ret : SchedRet Θ T A} {new y : TaskId Θ T}
    (hpc : s.pc x = .switchTo ret new) (hy : (s.pc y).onBgThread = true)
    (h : switchStep s θ x ret new = some s') : (s'.pc y).onBgThread = true := by
  obtain ⟨z, -, -, -, -, -, -, hpc'⟩ := switchStep_cases h
  rw [hpc']
  by_cases hyz : y = z
  · subst hyz
    rw [Function.update_self]
    exact onBgThread_resumed new _ _ hy
  · rw [Function.update_of_ne hyz]
    by_cases hyx : y = x
    · subst hyx
      rw [Function.update_self]
      rw [hpc] at hy
      cases ret with
      | yield => rfl
      | _ => cases hy
    · rwa [Function.update_of_ne hyx]

/-! ## §2. Clean runs. -/

/-- The native tasks of the BgThreads schedule or end, and none is Waiting. -/
structure BgAwake (bg : Θ → Bool) (s : State Θ T A) : Prop where
  points : ∀ θ, bg θ = true → (s.pc (.native θ)).onBgThread = true
  awake : ∀ θ, bg θ = true → (s.task (.native θ)).state ≠ .waiting

omit [DecidableEq Θ] [DecidableEq T] [DecidableEq A] in
/-- A native task that is neither Waiting nor at the end of its thread is
Running. -/
theorem BgAwake.running (hs : BgAwake bg s) (hgood : Good IsUnbound s) (hbg : bg θ = true)
    {ret : SchedRet Θ T A} {me : TaskId Θ T} {pc : SchedPc Θ T}
    (hpc : s.pc (.native θ) = .schedule ret me pc) : (s.task me).state = .running := by
  obtain ⟨tok, L, h⟩ := hgood
  have hloc := h.threads.locals (.native θ)
  rw [hpc] at hloc
  obtain ⟨rfl, hof, -⟩ := hloc
  cases hstate : (s.task (.native θ)).state with
  | running => rfl
  | waiting => exact absurd hstate (hs.awake θ hbg)
  | finished =>
      have hended := h.tokens.finished _ hstate
      rw [hpc] at hended
      cases ret with
      | finished => cases hof
      | _ => cases hended

/-- An access of some stack. -/
theorem BgAwake.points_go (hs : BgAwake bg s) (hgood : Good IsUnbound s) {θ' : Θ}
    (h : goStep bg s θ' (s.exec θ') spurious (s.pc (s.exec θ')) = some s') (hbg : bg θ = true) :
    (s'.pc (.native θ)).onBgThread = true := by
  have hpoint := hs.points θ hbg
  by_cases hjump : ∃ ret new, s.pc (s.exec θ') = .switchTo ret new
  · obtain ⟨ret, new, hpc⟩ := hjump
    rw [hpc] at h
    exact onBgThread_switchStep hpc hpoint h
  · rcases goStep_cases h with ⟨p', hin⟩ | ⟨ret, new, hpc, -⟩
    · by_cases hx : s.exec θ' = .native θ
      · rw [hx] at h hjump
        exact onBgThread_goStep rfl hpoint (fun ret me pc hpc => hs.running hgood hbg hpc)
          (fun ret new hpc => hjump ⟨ret, new, hpc⟩) h
      · rwa [hin.pc, Function.update_of_ne (Ne.symm hx)]
    · exact absurd ⟨ret, new, hpc⟩ hjump

theorem BgAwake.points_step (hs : BgAwake bg s) (hgood : Good IsUnbound s)
    (hstep : step bg s l = some s') (hbg : bg θ = true) :
    (s'.pc (.native θ)).onBgThread = true := by
  have hpoint := hs.points θ hbg
  obtain ⟨θ', c⟩ := l
  cases c with
  | go spurious => exact hs.points_go hgood (by simpa only [step] using hstep) hbg
  | pick t =>
      cases hpc : s.pc (s.exec θ') with
      | schedule ret me pc =>
          simp only [step, hpc] at hstep
          cases pc with
          | queue =>
              by_cases hx : s.exec θ' = .native θ
              · rw [hx] at hpc hstep
                rw [hpc] at hpoint
                exact onBgThread_pickStep hpoint hstep
              · obtain ⟨p', hin⟩ := inner_pickStep hpc hstep
                rwa [hin.pc, Function.update_of_ne (Ne.symm hx)]
          | _ => cases hstep
      | _ =>
          simp only [step, hpc] at hstep
          cases hstep
  | act action =>
      cases hpc : s.pc (s.exec θ') with
      | user =>
          simp only [step, hpc] at hstep
          by_cases hx : s.exec θ' = .native θ
          · obtain ⟨tok, L, h⟩ := hgood
            obtain rfl := h.threads.native θ' θ hx
            rw [hx] at hstep
            exact onBgThread_actionStep hbg hstep
          · obtain ⟨p', hacts⟩ := acts_of_actionStep hpc hstep
            rcases hacts.other _ (Ne.symm hx) with hsame | ⟨t, ht, -⟩
            · rwa [hsame]
            · cases ht
      | _ =>
          simp only [step, hpc] at hstep
          cases hstep

/-- Only an insertion stores Waiting, and the task is in none. -/
theorem BgAwake.awake_step (hs : BgAwake bg s) (hgood : Good IsUnbound s)
    (hstep : step bg s l = some s') (hbg : bg θ = true) :
    (s'.task (.native θ)).state ≠ .waiting := by
  intro hwaiting
  rcases step_state hstep (.native θ) with hsame | hstore | ⟨t, ht, -⟩
  · exact hs.awake θ hbg (hsame.symm.trans hwaiting)
  · rw [hwaiting] at hstore
    obtain ⟨tok, L, h⟩ := hgood
    have hloc := h.threads.locals (s.exec l.1)
    cases hpc : s.pc (s.exec l.1) with
    | insert a me pc =>
        rw [hpc] at hstore hloc
        obtain rfl : me = s.exec l.1 := hloc
        cases pc with
        | setState d =>
            injection hstore with hstore
            have hx : s.exec l.1 = .native θ := congrArg Prod.fst hstore
            have hpoint := hs.points θ hbg
            rw [← hx, hpc] at hpoint
            cases hpoint
        | undoState =>
            injection hstore with hstore
            cases congrArg Prod.snd hstore
        | _ => cases hstore
    | addState | finishState | exitState =>
        rw [hpc] at hstore
        injection hstore with hstore
        cases congrArg Prod.snd hstore
    | _ =>
        rw [hpc] at hstore
        cases hstore
  · cases ht

theorem bgAwake_of_clean (h : (machine T A bg).Reach Clean s) :
    Good IsUnbound s ∧ BgAwake bg s := by
  refine h.invariant (I := fun s => Good IsUnbound s ∧ BgAwake bg s) ?init ?step
  case init =>
    rintro s rfl
    exact ⟨inv_init, fun _ _ => rfl, fun _ _ hw => by cases hw⟩
  case step =>
    intro s l s' ⟨hgood, hs⟩ hok hstep
    exact ⟨inv_step (fun _ => rfl) hgood hok.orderly hstep,
      fun _ hbg => hs.points_step hgood hstep hbg, fun _ hbg => hs.awake_step hgood hstep hbg⟩

/-- **Only the native task of a Common thread blocks.**  In clean runs a call of
`do_schedule` comes to `native_futex.wait()` there only. -/
theorem blocks_of_clean (h : (machine T A bg).Reach Clean s) {ret : SchedRet Θ T A}
    {me : TaskId Θ T} {pc : SchedPc Θ T} (hpc : s.pc x = .schedule ret me pc)
    (hblocks : pc = .waiting ∨ pc = .futex) :
    ∃ θ, x = .native θ ∧ bg θ = false ∧ s.exec θ = x := by
  cases x with
  | unbound t =>
      obtain ⟨hwaiting, hfutex⟩ := awake_of_clean h hpc
      rcases hblocks with hb | hb
      · exact absurd hb hwaiting
      · exact absurd hb hfutex
  | native θ =>
      obtain ⟨⟨tok, L, hinv⟩, hs⟩ := bgAwake_of_clean h
      refine ⟨θ, rfl, ?_, ?_⟩
      · by_contra hbg
        have hpoint := hs.points θ (by simpa using hbg)
        rw [hpc] at hpoint
        rcases hblocks with rfl | rfl
        · cases ret <;> cases hpoint
        · cases ret <;> cases hpoint
      · -- a stack in `do_schedule` is executed, and a native one by its own thread
        by_contra hnot
        have hoff := hinv.threads.off (.native θ) fun θ' hθ' => by
          obtain rfl := hinv.threads.native θ' θ hθ'
          exact hnot hθ'
        rw [hpc] at hoff
        cases hoff

end Scheduler

end Alterstack
