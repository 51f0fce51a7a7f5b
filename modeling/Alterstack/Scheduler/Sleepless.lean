/-
  Alterstack.Scheduler.Sleepless — in clean runs only native tasks sleep.

  A call of `do_schedule` is entered at the head of its loop only, and while it
  goes on, the other threads of a clean run do no more than interfere: none of
  them executes the task of the call, so that all they can store into its state
  is Running.  What `Alterstack.Scheduler.DoSchedule` says about one call is
  therefore so for all calls of the run.

  Main results:
    * `step_atHead` — no step leads into the middle of `do_schedule`;
    * `interferes_of_good` — the steps of other threads interfere at most;
    * `awake_of_clean` — in clean runs no `Task` waits on `native_futex`.
-/
import Alterstack.Scheduler.DoSchedule

namespace Alterstack

namespace Scheduler

variable {Θ T A : Type*} [DecidableEq Θ] [DecidableEq T] [DecidableEq A]

variable {bg : Θ → Bool} {s s' : State Θ T A} {θ : Θ} {x : TaskId Θ T} {t : T}
  {ret : SchedRet Θ T A} {pc : SchedPc Θ T} {choice : Choice T A}

/-! ## §1. The head of the loop. -/

/-- A point of `do_schedule` at the head of its loop, or none. -/
def Pc.AtHead (bg : Θ → Bool) (θ : Θ) : Pc Θ T A → Prop
  | .schedule _ me pc => pc = nextTaskPc bg θ me
  | _ => True

omit [DecidableEq A] in
@[simp] theorem setPc_pc_self {p : Pc Θ T A} : (s.setPc x p).pc x = p := by simp [State.setPc]

omit [DecidableEq A] in
theorem atHead_scheduleReturn : ((scheduleReturn s x ret).pc x).AtHead bg θ := by
  cases ret <;> simp [scheduleReturn, returnPc, Pc.AtHead]

omit [DecidableEq A] in
theorem atHead_nextWaiting {rel : ReleaseRet Θ T} {a : AwId Θ T A}
    {delayed taskList : Option (TaskId Θ T)} :
    ((nextWaiting s x rel a delayed taskList).pc x).AtHead bg θ := by
  cases taskList with
  | some task => simp [nextWaiting, Pc.AtHead]
  | none =>
      cases delayed with
      | some task => simp [nextWaiting, Pc.AtHead]
      | none => cases rel <;> simp [nextWaiting, releaseReturn, Pc.AtHead]

theorem atHead_insertionStep {a : AwId Θ T A} {me : TaskId Θ T} {spurious : Bool}
    {pc : Awaitable.InsertPc (TaskId Θ T)} :
    ((insertionStep bg s θ x spurious a me pc).pc x).AtHead bg θ := by
  simp only [insertionStep]
  cases (Awaitable.insertStep me spurious (s.aw a) (s.task me) pc).2.2 with
  | goto pc' => simp [Pc.AtHead]
  | ret inserted =>
      cases inserted with
      | false => simp [Pc.AtHead]
      | true => simp [schedule, Pc.AtHead]

theorem atHead_releasingStep {rel : ReleaseRet Θ T} {a : AwId Θ T A} {spurious : Bool}
    {pc : Awaitable.ReleasePc (TaskId Θ T)} :
    ((releasingStep s x spurious rel a pc).pc x).AtHead bg θ := by
  simp only [releasingStep]
  cases (Awaitable.releaseStep spurious (s.aw a) pc).2 with
  | goto pc' => simp [Pc.AtHead]
  | ret => cases rel <;> simp [releaseReturn, Pc.AtHead]
  | pass taskList => exact atHead_nextWaiting

/-- An access enters `do_schedule` only at the head of its loop. -/
theorem goStep_atHead {spurious : Bool} (hns : ∀ ret me pc, s.pc x ≠ .schedule ret me pc)
    (h : goStep bg s θ x spurious (s.pc x) = some s') : (s'.pc x).AtHead bg θ := by
  cases hpc : s.pc x with
  | schedule ret me pc => exact absurd hpc (hns ret me pc)
  | unborn => rw [hpc] at h; cases h
  | start => rw [hpc] at h; cases h
  | suspended => rw [hpc] at h; cases h
  | user => rw [hpc] at h; cases h
  | unreachable => rw [hpc] at h; cases h
  | exited => rw [hpc] at h; cases h
  | switchTo ret new =>
      rw [hpc] at h
      rcases switchStep_pc hpc h x with h | ⟨-, h⟩ | ⟨-, -, ret', me, h, -⟩
      · rw [h, hpc]
        trivial
      · rw [h]
        trivial
      · rw [h]
        trivial
  | postJump ret me prev fctx pc =>
      rw [hpc] at h
      injection h with h
      subst h
      cases pc with
      | clearCurrent => simp [postJumpStep, Pc.AtHead]
      | savePrev => simp [postJumpStep, Pc.AtHead]
      | prevState =>
          simp only [postJumpStep]
          split
          · simp [Pc.AtHead]
          · exact atHead_scheduleReturn
      | enqueue => exact atHead_scheduleReturn
  | insert a me pc =>
      rw [hpc] at h
      injection h with h
      exact h ▸ atHead_insertionStep
  | release rel a pc =>
      rw [hpc] at h
      injection h with h
      exact h ▸ atHead_releasingStep
  | addNotify rel a taskList delayed z =>
      rw [hpc] at h
      injection h with h
      exact h ▸ atHead_nextWaiting
  | addEnqueue rel a taskList delayed z =>
      rw [hpc] at h
      injection h with h
      exact h ▸ atHead_nextWaiting
  | delayedEnqueue rel a delayed z =>
      rw [hpc] at h
      injection h with h
      exact h ▸ atHead_nextWaiting
  | addContext rel a taskList delayed z =>
      rw [hpc] at h
      injection h with h
      subst h
      simp only [addContextStep]
      split
      · exact atHead_nextWaiting
      · simp [Pc.AtHead]
  | delayedContext rel a delayed z =>
      rw [hpc] at h
      injection h with h
      subst h
      simp only [delayedContextStep]
      split
      · rw [hpc]
        trivial
      · simp [Pc.AtHead]
  | addState rel a z delayed =>
      rw [hpc] at h
      injection h with h
      subst h
      simp only [addStateStep, setPc_pc_self]
      split <;> trivial
  | joinState t =>
      rw [hpc] at h
      injection h with h
      subst h
      rw [setPc_pc_self]
      split <;> trivial
  | dtorState t =>
      rw [hpc] at h
      simp only [goStep] at h
      split at h <;> injection h with h <;> subst h
      · simp [Pc.AtHead]
      · simp [schedule, Pc.AtHead]
  | dtorContext t =>
      rw [hpc] at h
      simp only [goStep] at h
      split at h <;> injection h with h <;> subst h
      · simp [schedule, Pc.AtHead]
      · simp [Pc.AtHead]
  | _ =>
      rw [hpc] at h
      injection h with h
      subst h
      simp [Pc.AtHead]

omit [DecidableEq A] in
theorem actionStep_atHead {action : Action T A} (h : actionStep bg s θ x action = some s') :
    (s'.pc x).AtHead bg θ := by
  cases action with
  | yield =>
      injection h with h
      subst h
      simp [schedule, Pc.AtHead]
  | finish =>
      cases x with
      | native θ' => cases h
      | unbound t =>
          injection h with h
          subst h
          simp [Pc.AtHead]
  | exit =>
      cases x with
      | native θ' =>
          injection h with h
          subst h
          simp [Pc.AtHead]
      | unbound t => cases h
  | _ =>
      simp only [actionStep] at h
      split at h
      next => cases h
      next =>
        injection h with h
        subst h
        simp [Pc.AtHead]

/-- No step leads into the middle of `do_schedule` from outside. -/
theorem step_atHead {l : Label Θ T A} (h : step bg s l = some s')
    (hns : ∀ ret me pc, s.pc x ≠ .schedule ret me pc) : (s'.pc x).AtHead bg l.1 := by
  obtain ⟨θ, c⟩ := l
  by_cases hx : x = s.exec θ
  · subst hx
    cases c with
    | go spurious => exact goStep_atHead hns (by simpa only [step] using h)
    | pick t =>
        cases hpc : s.pc (s.exec θ) with
        | schedule ret me pc => exact absurd hpc (hns ret me pc)
        | _ =>
            simp only [step, hpc] at h
            cases h
    | act action =>
        cases hpc : s.pc (s.exec θ) with
        | user =>
            simp only [step, hpc] at h
            exact actionStep_atHead h
        | _ =>
            simp only [step, hpc] at h
            cases h
  · cases step_pc h x with
    | same h =>
        rw [h]
        cases hpc : s.pc x with
        | schedule ret me pc => exact absurd hpc (hns ret me pc)
        | _ => trivial
    | access hx' _ => exact absurd hx' hx
    | suspended hx' => exact absurd hx' hx
    | acts hx' => exact absurd hx' hx
    | resumed new hready hctx ret me fctx h hsub =>
        rw [h]
        trivial
    | constructed hlife h =>
        rw [h]
        trivial

/-! ## §2. The other threads. -/

omit [DecidableEq Θ] [DecidableEq T] [DecidableEq A] in
/-- A stack stores into the state of another task only Running. -/
theorem Pc.running_of_stateStore {p : Pc Θ T A} {z : TaskId Θ T} {state : TaskState}
    (hloc : p.Local x) (h : p.stateStore = some (z, state)) (hz : z ≠ x) : state = .running := by
  cases p with
  | insert a me pc =>
      cases pc with
      | setState aw =>
          cases h
          exact absurd hloc hz
      | undoState =>
          cases h
          rfl
      | _ => cases h
  | addState rel a w delayed =>
      cases h
      rfl
  | finishState me =>
      cases h
      exact absurd hloc.1 hz
  | exitState me =>
      cases h
      exact absurd hloc.1 hz
  | _ => cases h

/-- **The other threads only interfere** with the task that a thread executes. -/
theorem interferes_of_good {l : Label Θ T A} (h : Good IsUnbound s) (hx : s.exec θ = .unbound t)
    (hθ : l.1 ≠ θ) (hstep : step bg s l = some s') : Interferes θ t s s' := by
  have hother : TaskId.unbound t ≠ s.exec l.1 := fun hxl =>
    hθ (h.exclusive.executed l.1 θ t hxl.symm hx)
  obtain ⟨tok, L, h⟩ := h
  have hon : (s.pc (.unbound t)).off = false := hx ▸ h.threads.on θ
  -- the task is constructed, or it would not be executed
  have hborn : s.life (.unbound t) ≠ .unborn := by
    intro hlife
    rw [h.life t hlife] at hon
    cases hon
  refine ⟨step_exec hstep fun hθl => hθ hθl.symm, ?_, ?_⟩
  · rw [hx]
    rcases step_cases hstep with ⟨p', hin⟩ | ⟨ret', new, hpc, hsw⟩ | ⟨action, p', -, hact⟩
    · rw [hin.pc, Function.update_of_ne hother]
    · rcases switchStep_pc hpc hsw (.unbound t) with hsame | ⟨hself, -⟩ | ⟨hoff, -, -⟩
      · exact hsame
      · exact absurd hself hother
      · rw [hon] at hoff
        cases hoff
    · rcases hact.other _ hother with hsame | ⟨u, hu, hcreate, -⟩
      · exact hsame
      · cases hu
        exact absurd (hact.create t hcreate).1 hborn
  · rcases step_state hstep (.unbound t) with hsame | hstore | ⟨u, hu, hlife, -⟩
    · exact .inl hsame
    · exact .inr (Pc.running_of_stateStore (h.threads.locals _) hstore hother)
    · cases hu
      exact absurd hlife hborn

/-! ## §3. All calls of a run. -/

/-- Every call of a `Task` is at a fine point. -/
def CallsFine (s : State Θ T A) : Prop :=
  ∀ t ret me pc, s.pc (.unbound t) = .schedule ret me pc → pc.Fine (s.task (.unbound t)).state

omit [DecidableEq Θ] [DecidableEq T] [DecidableEq A] in
theorem fine_nextTaskPc {me : TaskId Θ T} {state : TaskState} :
    (nextTaskPc bg θ me).Fine state := by
  unfold nextTaskPc
  split
  · trivial
  · split <;> trivial

/-- A call that goes on is at a fine point again. -/
theorem fine_of_step {pc' : SchedPc Θ T} {ret' : SchedRet Θ T A} {me : TaskId Θ T}
    (hpc : s.pc (s.exec θ) = .schedule ret (.unbound t) pc)
    (hfine : pc.Fine (s.task (.unbound t)).state) (hstep : step bg s (θ, choice) = some s')
    (hpc' : s'.pc (s.exec θ) = .schedule ret' me pc') :
    pc'.Fine (s'.task (.unbound t)).state := by
  cases step_schedule_cases hpc hfine hstep with
  | goesOn pc₁ hpc₁ hrank hfine₁ =>
      rw [hpc'] at hpc₁
      cases hpc₁
      exact hfine₁
  | found nextTask hpc₁ =>
      rw [hpc'] at hpc₁
      cases hpc₁
  | returned hrunning hreturn =>
      have hhead : ((scheduleReturn s (s.exec θ) ret).pc (s.exec θ)).AtHead bg θ :=
        atHead_scheduleReturn
      rw [← hreturn, hpc'] at hhead
      obtain rfl : pc' = nextTaskPc bg θ me := hhead
      exact fine_nextTaskPc

theorem callsFine_step {l : Label Θ T A} (h : Good IsUnbound s) (hs : CallsFine s)
    (hstep : step bg s l = some s') : CallsFine s' := by
  intro t ret me pc' hpc'
  by_cases hns : ∀ ret me pc, s.pc (.unbound t) ≠ .schedule ret me pc
  · have hhead := step_atHead hstep hns
    rw [hpc'] at hhead
    obtain rfl : pc' = nextTaskPc bg l.1 me := hhead
    exact fine_nextTaskPc
  · push Not at hns
    obtain ⟨ret₀, me₀, pc, hpc⟩ := hns
    have hfine := hs t ret₀ me₀ pc hpc
    -- a stack in `do_schedule` is executed, by the thread of the step or another
    obtain ⟨θ, hx, rfl⟩ : ∃ θ, s.exec θ = .unbound t ∧ me₀ = .unbound t := by
      obtain ⟨tok, L, h⟩ := h
      have hloc := h.threads.locals (.unbound t)
      rw [hpc] at hloc
      by_contra hne
      have hoff := h.threads.off (.unbound t) fun θ hθ => hne ⟨θ, hθ, hloc.1⟩
      rw [hpc] at hoff
      cases hoff
    have hcall : s.pc (s.exec θ) = .schedule ret₀ (.unbound t) pc := by rw [hx, hpc]
    by_cases hθ : l.1 = θ
    · subst hθ
      exact fine_of_step hcall hfine hstep (by rw [hx, hpc'])
    · have hothers := interferes_of_good h hx hθ hstep
      have hsame := hothers.pc
      rw [hx, hpc, hpc'] at hsame
      cases hsame
      exact hothers.fine hfine

/-- **In clean runs no `Task` sleeps**: a thread reaches `native_futex.wait()`
in the code of its native task only. -/
theorem awake_of_clean (h : (machine T A bg).Reach Clean s) {me : TaskId Θ T}
    (hpc : s.pc (.unbound t) = .schedule ret me pc) : pc ≠ .waiting ∧ pc ≠ .futex := by
  have hgood : Good IsUnbound s ∧ CallsFine s := by
    refine h.invariant (I := fun s => Good IsUnbound s ∧ CallsFine s) ?init ?step
    case init =>
      rintro s rfl
      exact ⟨inv_init, fun t ret me pc hpc => by cases hpc⟩
    case step =>
      intro s l s' ⟨hs, hcalls⟩ hok hstep
      exact ⟨inv_step (fun _ => rfl) hs hok.orderly hstep, callsFine_step hs hcalls hstep⟩
  have hfine := hgood.2 t ret me pc hpc
  constructor
  · rintro rfl
    exact hfine
  · rintro rfl
    exact hfine

end Scheduler

end Alterstack
