/-
  Alterstack.Scheduler.Threads — which stack each OS thread executes.

  A stack is off (not yet jumped to, or suspended in `switch_to`) exactly while
  no thread executes it; `m_current_task` names the executed stack; the locals
  `current_task`, `old_task` and `current` on a stack name the task of that
  stack; a native task is executed by its own thread only.

  Main results:
    * `Threads.setPc` — a step of an executed stack that stays on;
    * `Threads.jump` — `switch_to` between an executed and an off stack.
-/
import Alterstack.Scheduler.Code

namespace Alterstack

namespace Scheduler

variable {Θ T A : Type*}

/-! ## §1. What a control point says about its stack. -/

/-- The last `schedule` of `_run_wrapper`. -/
def SchedRet.last : SchedRet Θ T A → Bool
  | .finished => true
  | _ => false

namespace Pc

/-- Nobody executes a stack at this point. -/
def off : Pc Θ T A → Bool
  | .unborn | .start | .suspended _ _ => true
  | _ => false

/-- `do_schedule` of a finished task, or a finished thread. -/
def ended : Pc Θ T A → Bool
  | .schedule ret _ _ | .switchTo ret _ | .suspended ret _ => ret.last
  | .exited => true
  | _ => false

end Pc

/-- Points of `get_next_task` that only unbound tasks reach. -/
def SchedPc.onlyUnbound : SchedPc Θ T → Bool
  | .native | .currentState _ => true
  | _ => false

/-- `_run_wrapper` ends on the stack of a `Task`. -/
def SchedRet.Of (x : TaskId Θ T) : SchedRet Θ T A → Prop
  | .finished => x.isThreadBound = false
  | _ => True

/-- The local `current` of `_run_wrapper` and `this` of `~BoundTask` are the
task of the stack. -/
def ReleaseRet.Of (x : TaskId Θ T) : ReleaseRet Θ T → Prop
  | .finish current => current = x ∧ x.isThreadBound = false
  | .exit this => this = x ∧ x.isThreadBound = true
  | _ => True

/-- The locals of a control point on the stack of `x`; in clean runs nobody is
ever delayed and nothing follows the last `schedule`. -/
def Pc.Local (x : TaskId Θ T) : Pc Θ T A → Prop
  | .insert _ currentTask _ => currentTask = x
  | .schedule ret currentTask pc =>
      currentTask = x ∧ ret.Of x ∧ (pc.onlyUnbound = true → x.isThreadBound = false)
  | .switchTo ret newTask => ret.Of x ∧ (newTask.isThreadBound = true → x.isThreadBound = false)
  | .suspended ret oldTask => oldTask = x ∧ ret.Of x
  | .postJump ret currentTask prevTask fctx pc =>
      currentTask = x ∧ fctx = .fcontext prevTask ∧ ret ≠ .finished ∧
        (pc = .enqueue → prevTask.isThreadBound = false)
  | .release ret _ _ => ret.Of x
  | .addState ret _ _ delayed | .addNotify ret _ _ delayed _ => ret.Of x ∧ delayed = none
  | .addContext ret _ _ delayed task | .addEnqueue ret _ _ delayed task =>
      ret.Of x ∧ delayed = none ∧ task.isThreadBound = false
  | .delayedContext _ _ _ _ | .delayedEnqueue _ _ _ _ | .unreachable => False
  | .finishState current => current = x ∧ x.isThreadBound = false
  | .exitState this => this = x ∧ x.isThreadBound = true
  | .exited => x.isThreadBound = true
  | .unborn | .start => x.isThreadBound = false
  | _ => True

/-! ## §2. The invariant. -/

structure Threads (pc : TaskId Θ T → Pc Θ T A) (exec cur : Θ → TaskId Θ T)
    (wrapper : TaskId Θ T → TaskId Θ T) : Prop where
  locals : ∀ x, (pc x).Local x
  wrapper_eq : ∀ x, wrapper x = x
  cur_eq : ∀ θ, cur θ = exec θ
  native : ∀ θ θ', exec θ = .native θ' → θ' = θ
  on : ∀ θ, (pc (exec θ)).off = false
  off : ∀ x, (∀ θ, exec θ ≠ x) → (pc x).off = true

theorem threads_init [DecidableEq Θ] [DecidableEq T] :
    Threads (initial : State Θ T A).pc (initial : State Θ T A).exec
      (initial : State Θ T A).cur (initial : State Θ T A).wrapper where
  locals := by
    rintro (θ | t)
    · trivial
    · rfl
  wrapper_eq := fun _ => rfl
  cur_eq := fun _ => rfl
  native := by
    intro θ θ' h
    injection h with h
    exact h.symm
  on := fun _ => rfl
  off := by
    rintro (θ | t) hx
    · exact absurd rfl (hx θ)
    · rfl

namespace Threads

variable [DecidableEq Θ] [DecidableEq T] {pc : TaskId Θ T → Pc Θ T A} {exec cur : Θ → TaskId Θ T}
  {wrapper : TaskId Θ T → TaskId Θ T} {θ : Θ} {x y : TaskId Θ T} {p : Pc Θ T A}

omit [DecidableEq Θ] [DecidableEq T] in
/-- The native task of another thread is not executed here. -/
theorem thread_eq (h : Threads pc exec cur wrapper) {θ' : Θ} (hx : exec θ = .native θ') :
    exec θ' = .native θ' := by
  obtain rfl := h.native θ θ' hx
  exact hx

omit [DecidableEq Θ] [DecidableEq T] in
theorem not_exec_of_off (h : Threads pc exec cur wrapper) (hoff : (pc x).off = true) :
    exec θ ≠ x := by
  intro hx
  have := h.on θ
  rw [hx, hoff] at this
  cases this

/-- An executed stack moves on. -/
theorem setPc (h : Threads pc exec cur wrapper) (hx : exec θ = x) (hloc : p.Local x)
    (hon : p.off = false) : Threads (Function.update pc x p) exec cur wrapper where
  locals := by
    intro z
    by_cases hz : z = x
    · subst hz
      simpa using hloc
    · simpa [hz] using h.locals z
  wrapper_eq := h.wrapper_eq
  cur_eq := h.cur_eq
  native := h.native
  on := by
    intro θ'
    by_cases hz : exec θ' = x
    · simpa [hz] using hon
    · simpa [hz] using h.on θ'
  off := by
    intro z hz
    have hzx : z ≠ x := fun hzx => hz θ (hx.trans hzx.symm)
    simpa [hzx] using h.off z hz

/-- A constructed stack waits for its first jump. -/
theorem create (h : Threads pc exec cur wrapper) {t : T} (hoff : (pc (.unbound t)).off = true) :
    Threads (Function.update pc (.unbound t) .start) exec cur wrapper where
  locals := by
    intro z
    by_cases hz : z = .unbound t
    · subst hz
      simp [Pc.Local, TaskId.isThreadBound]
    · simpa [hz] using h.locals z
  wrapper_eq := h.wrapper_eq
  cur_eq := h.cur_eq
  native := h.native
  on := by
    intro θ'
    have hz : exec θ' ≠ .unbound t := h.not_exec_of_off hoff
    simpa [hz] using h.on θ'
  off := by
    intro z hz
    by_cases hzt : z = .unbound t
    · subst hzt
      simp [Pc.off]
    · simpa [hzt] using h.off z hz

/-- `switch_to` from the executed stack `x` to the off stack `y`. -/
theorem jump (h : Threads pc exec cur wrapper) (hx : exec θ = x)
    (honly : ∀ θ', exec θ' = x → θ' = θ) {ret : SchedRet Θ T A} (hret : ret.Of x)
    (hoff : (pc y).off = true) (hborn : pc y ≠ .unborn)
    (hend : (pc y).ended = false) (hnative : ∀ θ', y = .native θ' → θ' = θ)
    {wrapper' : TaskId Θ T → TaskId Θ T} (hwrapper : ∀ z, wrapper' z = z) :
    Threads
      (Function.update (Function.update pc x (.suspended ret (cur θ))) y
        (resumed y (cur θ) (.fcontext x) (pc y)))
      (Function.update exec θ y) (Function.update cur θ y)
      wrapper' := by
  have hyx : y ≠ x := fun hyx => h.not_exec_of_off (θ := θ) hoff (hyx ▸ hx)
  -- `y` goes on where it was suspended, or starts
  have hres : (resumed y (cur θ) (.fcontext x) (pc y)).Local y ∧
      (resumed y (cur θ) (.fcontext x) (pc y)).off = false := by
    have hloc := h.locals y
    have hcur : cur θ = x := (h.cur_eq θ).trans hx
    rcases hy : pc y with _ | _ | ⟨ret', old⟩ | _ <;> rw [hy] at hoff hloc hend
    case unborn => exact absurd hy hborn
    case start => exact ⟨⟨rfl, by rw [hcur], nofun, nofun⟩, rfl⟩
    case suspended =>
      refine ⟨⟨hloc.1, by rw [hcur], ?_, nofun⟩, rfl⟩
      rintro rfl
      cases hend
    all_goals cases hoff
  refine ⟨?locals, hwrapper, ?cur_eq, ?native, ?on, ?off⟩
  case locals =>
    intro z
    by_cases hzy : z = y
    · subst hzy
      simpa using hres.1
    · by_cases hzx : z = x
      · subst hzx
        simpa [hzy, Pc.Local] using ⟨(h.cur_eq θ).trans hx, hret⟩
      · simpa [hzy, hzx] using h.locals z
  case cur_eq =>
    intro θ'
    by_cases hθ : θ' = θ
    · subst hθ
      simp
    · simpa [hθ] using h.cur_eq θ'
  case native =>
    intro θ' θ''
    by_cases hθ : θ' = θ
    · subst hθ
      simpa using hnative θ''
    · simpa [hθ] using h.native θ' θ''
  case on =>
    intro θ'
    by_cases hθ : θ' = θ
    · subst hθ
      simpa using hres.2
    · have hzy : exec θ' ≠ y := h.not_exec_of_off hoff
      have hzx : exec θ' ≠ x := fun hz => hθ (honly θ' hz)
      simpa [hθ, hzy, hzx] using h.on θ'
  case off =>
    intro z hz
    have hzy : z ≠ y := by
      intro hzy
      exact hz θ (by simp [hzy])
    by_cases hzx : z = x
    · subst hzx
      simp [hzy, Pc.off]
    · have : ∀ θ', exec θ' ≠ z := by
        intro θ' hθ'
        by_cases hθ : θ' = θ
        · subst hθ
          exact hzx (hθ'.symm.trans hx)
        · exact hz θ' (by simpa [hθ] using hθ')
      simpa [hzy, hzx] using h.off z this

end Threads

end Scheduler

end Alterstack
