/-
  Alterstack.Scheduler.Awake — what a task's control point says about its
  state.

  The facts are about the tasks in `W`.  While the code of such a task runs, or
  is switched out for any other reason than `wait`, the task is Running; inside
  `wait` it is Running only once the Awaitable it was inserted in is finished;
  and the thread that is about to resume it has found it Running.  `W` is the
  set of unbound tasks, or of all tasks: that a native task is resumed only
  while it is Running is not ensured by the code.

  Main results:
    * `Awake.move`, `Awake.setPc`, `Awake.quiet` — steps of an executed stack;
    * `Awake.wake`, `Awake.insert`, `Awake.finish`, `Awake.jump` — the other
      steps.
-/
import Alterstack.Scheduler.Tokens

namespace Alterstack

namespace Scheduler

variable {Θ T A : Type*}

/-! ## §1. Points inside and outside `wait`. -/

namespace SchedRet

/-- The Awaitable of a `wait`. -/
def waitsOn : SchedRet Θ T A → Option (AwId Θ T A)
  | .wait a => some a
  | _ => none

/-- A `schedule` by which the task neither waits nor ends. -/
def awake : SchedRet Θ T A → Bool
  | .wait _ | .finished => false
  | _ => true

end SchedRet

namespace Pc

/-- The task neither waits, nor changes its state, nor has ended. -/
def awake : Pc Θ T A → Bool
  | .schedule ret _ _ | .switchTo ret _ | .suspended ret _ => ret.awake
  | .insert _ _ (.setContext _) | .insert _ _ (.cas _) | .insert _ _ .undoState => false
  | .unborn | .exited => false
  | _ => true

/-- The Awaitable inside whose `wait` the task is. -/
def asleep : Pc Θ T A → Option (AwId Θ T A)
  | .schedule ret _ _ | .switchTo ret _ | .suspended ret _ => ret.waitsOn
  | _ => none

/-- The Awaitable whose `wait` the task is leaving. -/
def woken : Pc Θ T A → Option (AwId Θ T A)
  | .postJump ret _ _ _ _ => ret.waitsOn
  | .waitRet a _ => some a
  | _ => none

/-- `p'` says no more about the state of its task than `p`. -/
structure Follows (p p' : Pc Θ T A) : Prop where
  awake : p'.awake = true → p.awake = true
  asleep : ∀ a, p'.asleep = some a → p.asleep = some a
  woken : ∀ a, p'.woken = some a → p.woken = some a
  ready : ∀ θ, p'.ready = some (.native θ) → p.ready = some (.native θ)

end Pc

/-! ## §2. The invariant. -/

structure Awake (W : TaskId Θ T → Prop) (pc : TaskId Θ T → Pc Θ T A)
    (task : TaskId Θ T → TaskBase (TaskId Θ T)) (aw : AwId Θ T A → AwaitableData (TaskId Θ T))
    (insertedIn : TaskId Θ T → Option (AwId Θ T A)) : Prop where
  awake : ∀ x, W x → (pc x).awake = true → (task x).state = .running
  asleep : ∀ x a, W x → (pc x).asleep = some a →
    insertedIn x = some a ∧ ((task x).state = .running → (aw a).isFinished = true)
  woken : ∀ x a, W x → (pc x).woken = some a → (aw a).isFinished = true
  target : ∀ y θ, W (.native θ) → (pc y).ready = some (.native θ) →
    (task (.native θ)).state = .running

theorem awake_init [DecidableEq Θ] [DecidableEq T] (W : TaskId Θ T → Prop) :
    Awake W (initial : State Θ T A).pc (initial : State Θ T A).task
      (initial : State Θ T A).aw (initial : State Θ T A).insertedIn where
  awake := fun _ _ _ => rfl
  asleep := by rintro (_ | _) a _ h <;> cases h
  woken := by rintro (_ | _) a _ h <;> cases h
  target := fun _ _ _ _ => rfl

namespace Awake

variable [DecidableEq Θ] [DecidableEq T] {W : TaskId Θ T → Prop} {pc : TaskId Θ T → Pc Θ T A}
  {task : TaskId Θ T → TaskBase (TaskId Θ T)} {aw : AwId Θ T A → AwaitableData (TaskId Θ T)}
  {insertedIn : TaskId Θ T → Option (AwId Θ T A)} {x y z : TaskId Θ T} {p : Pc Θ T A}
  {f : TaskBase (TaskId Θ T)}

omit [DecidableEq Θ] [DecidableEq T] in
/-- Only states matter. -/
theorem congr {task' : TaskId Θ T → TaskBase (TaskId Θ T)} (h : Awake W pc task aw insertedIn)
    (hs : ∀ x, (task' x).state = (task x).state) : Awake W pc task' aw insertedIn where
  awake := fun x hx ha => (hs x).trans (h.awake x hx ha)
  asleep := fun x a hx ha => ⟨(h.asleep x a hx ha).1,
    fun hr => (h.asleep x a hx ha).2 ((hs x).symm.trans hr)⟩
  woken := h.woken
  target := fun y θ hθ hy => (hs _).trans (h.target y θ hθ hy)

omit [DecidableEq Θ] [DecidableEq T] in
/-- A finished Awaitable stays finished. -/
theorem finish {aw' : AwId Θ T A → AwaitableData (TaskId Θ T)}
    (h : Awake W pc task aw insertedIn)
    (hm : ∀ a, (aw a).isFinished = true → (aw' a).isFinished = true) :
    Awake W pc task aw' insertedIn where
  awake := h.awake
  asleep := fun x a hx ha => ⟨(h.asleep x a hx ha).1, fun hr => hm a ((h.asleep x a hx ha).2 hr)⟩
  woken := fun x a hx ha => hm a (h.woken x a hx ha)
  target := h.target

/-- An executed stack writes its own task and moves; nobody else is about to
switch to it. -/
theorem move (h : Awake W pc task aw insertedIn)
    (hself : ∀ y θ, y ≠ x → (pc y).ready = some (.native θ) → TaskId.native θ ≠ x)
    (hawake : W x → p.awake = true → f.state = .running)
    (hasleep : ∀ a, W x → p.asleep = some a →
      insertedIn x = some a ∧ (f.state = .running → (aw a).isFinished = true))
    (hwoken : ∀ a, W x → p.woken = some a → (aw a).isFinished = true)
    (htarget : ∀ θ, W (.native θ) → p.ready = some (.native θ) →
      TaskId.native θ ≠ x ∧ (task (.native θ)).state = .running) :
    Awake W (Function.update pc x p) (Function.update task x f) aw insertedIn where
  awake := by
    intro z hz ha
    by_cases hzx : z = x
    · subst hzx
      simpa using hawake hz (by simpa using ha)
    · simpa [hzx] using h.awake z hz (by simpa [hzx] using ha)
  asleep := by
    intro z a hz ha
    by_cases hzx : z = x
    · subst hzx
      simpa using hasleep a hz (by simpa using ha)
    · simpa [hzx] using h.asleep z a hz (by simpa [hzx] using ha)
  woken := by
    intro z a hz ha
    by_cases hzx : z = x
    · subst hzx
      exact hwoken a hz (by simpa using ha)
    · exact h.woken z a hz (by simpa [hzx] using ha)
  target := by
    intro y θ hθ hy
    by_cases hyx : y = x
    · subst hyx
      obtain ⟨hne, hs⟩ := htarget θ hθ (by simpa using hy)
      simpa [hne] using hs
    · rw [Function.update_of_ne hyx] at hy
      have hne := hself y θ hyx hy
      simpa [hne] using h.target y θ hθ hy

/-- A step that writes nothing. -/
theorem setPc (h : Awake W pc task aw insertedIn)
    (hawake : W x → p.awake = true → (task x).state = .running)
    (hasleep : ∀ a, W x → p.asleep = some a →
      insertedIn x = some a ∧ ((task x).state = .running → (aw a).isFinished = true))
    (hwoken : ∀ a, W x → p.woken = some a → (aw a).isFinished = true)
    (htarget : ∀ θ, W (.native θ) → p.ready = some (.native θ) →
      (task (.native θ)).state = .running) :
    Awake W (Function.update pc x p) task aw insertedIn where
  awake := by
    intro z hz ha
    by_cases hzx : z = x
    · subst hzx
      exact hawake hz (by simpa using ha)
    · exact h.awake z hz (by simpa [hzx] using ha)
  asleep := by
    intro z a hz ha
    by_cases hzx : z = x
    · subst hzx
      exact hasleep a hz (by simpa using ha)
    · exact h.asleep z a hz (by simpa [hzx] using ha)
  woken := by
    intro z a hz ha
    by_cases hzx : z = x
    · subst hzx
      exact hwoken a hz (by simpa using ha)
    · exact h.woken z a hz (by simpa [hzx] using ha)
  target := by
    intro y θ hθ hy
    by_cases hyx : y = x
    · subst hyx
      exact htarget θ hθ (by simpa using hy)
    · exact h.target y θ hθ (by simpa [hyx] using hy)

/-- A step that writes nothing, to a point that says no more. -/
theorem quiet (h : Awake W pc task aw insertedIn) (hp : (pc x).Follows p) :
    Awake W (Function.update pc x p) task aw insertedIn :=
  h.setPc (fun hW ha => h.awake x hW (hp.awake ha))
    (fun a hW ha => h.asleep x a hW (hp.asleep a ha))
    (fun a hW ha => h.woken x a hW (hp.woken a ha)) (fun θ hW hr => h.target x θ hW (hp.ready θ hr))

/-- A released task becomes Running. -/
theorem wake (h : Awake W pc task aw insertedIn)
    (hz : ∀ a, insertedIn z = some a → (aw a).isFinished = true) (n : Option (TaskId Θ T)) :
    Awake W pc (Function.update task z { task z with state := .running, next := n }) aw
      insertedIn where
  awake := by
    intro x hx ha
    by_cases hxz : x = z
    · simp [hxz]
    · simpa [hxz] using h.awake x hx ha
  asleep := by
    intro x a hx ha
    by_cases hxz : x = z
    · subst hxz
      have hin := (h.asleep x a hx ha).1
      exact ⟨hin, fun _ => hz a hin⟩
    · simpa [hxz] using h.asleep x a hx ha
  woken := h.woken
  target := by
    intro y θ hθ hy
    by_cases hxz : TaskId.native θ = z
    · simp [hxz]
    · simpa [hxz] using h.target y θ hθ hy

/-- The compare-exchange that lists `x`. -/
theorem insert [DecidableEq A] (h : Awake W pc task aw insertedIn) {a : AwId Θ T A}
    (hw : (task x).state = .waiting) (hp : p.asleep = some a) (hp' : p.awake = false)
    (hp'' : p.woken = none) (hr : p.ready = none) {d : AwaitableData (TaskId Θ T)}
    (hfin : (aw a).isFinished = false) :
    Awake W (Function.update pc x p) task (Function.update aw a d)
      (Function.update insertedIn x (some a)) := by
  have hm : ∀ b, (aw b).isFinished = true → (Function.update aw a d b).isFinished = true := by
    intro b hb
    have hba : b ≠ a := by
      rintro rfl
      rw [hfin] at hb
      cases hb
    simpa [hba] using hb
  refine ⟨?_, ?_, ?_, ?_⟩
  · intro z hz ha
    by_cases hzx : z = x
    · subst hzx
      rw [Function.update_self, hp'] at ha
      cases ha
    · exact h.awake z hz (by simpa [hzx] using ha)
  · intro z b hz ha
    by_cases hzx : z = x
    · subst hzx
      rw [Function.update_self, hp] at ha
      refine ⟨by simpa using ha, fun hr => ?_⟩
      rw [hw] at hr
      cases hr
    · obtain ⟨hin, hfin⟩ := h.asleep z b hz (by simpa [hzx] using ha)
      exact ⟨by simpa [hzx] using hin, fun hr => hm b (hfin hr)⟩
  · intro z b hz ha
    by_cases hzx : z = x
    · subst hzx
      rw [Function.update_self, hp''] at ha
      cases ha
    · exact hm b (h.woken z b hz (by simpa [hzx] using ha))
  · intro y θ hθ hy
    by_cases hyx : y = x
    · subst hyx
      rw [Function.update_self, hr] at hy
      cases hy
    · exact h.target y θ hθ (by simpa [hyx] using hy)

/-- The fields of a new task are initialised. -/
theorem construct (h : Awake W pc task aw insertedIn) (t : T)
    (c : Context (TaskId Θ T)) :
    Awake W (Function.update pc (.unbound t) .start)
      (Function.update task (.unbound t) { context := c }) aw insertedIn where
  awake := by
    intro x hx ha
    by_cases hxt : x = .unbound t
    · simp [hxt]
    · simpa [hxt] using h.awake x hx (by simpa [hxt] using ha)
  asleep := by
    intro x a hx ha
    by_cases hxt : x = .unbound t
    · simp [hxt, Pc.asleep] at ha
    · simpa [hxt] using h.asleep x a hx (by simpa [hxt] using ha)
  woken := by
    intro x a hx ha
    by_cases hxt : x = .unbound t
    · simp [hxt, Pc.woken] at ha
    · exact h.woken x a hx (by simpa [hxt] using ha)
  target := by
    intro y θ hθ hy
    by_cases hyt : y = .unbound t
    · simp [hyt, Pc.ready] at hy
    · simpa using h.target y θ hθ (by simpa [hyt] using hy)

/-- A suspended or new stack is resumed while its task is Running. -/
theorem jump (h : Awake W pc task aw insertedIn) {ret : SchedRet Θ T A}
    (hpc : pc x = .switchTo ret y) (hyx : y ≠ x) (hoff : (pc y).off = true) (hborn : pc y ≠ .unborn)
    (hrunning : W y → (task y).state = .running) (old : TaskId Θ T)
    (c : Context (TaskId Θ T)) :
    Awake W (Function.update (Function.update pc x (.suspended ret old)) y
      (resumed y old c (pc y))) task aw insertedIn := by
  have hfirst := h.quiet (x := x) (p := .suspended ret old)
    (by rw [hpc]; exact ⟨fun h => h, fun _ h => h, nofun, nofun⟩)
  -- the resumed point: awake, and out of the `wait` it was in
  have hres : ∀ a, W y → (resumed y old c (pc y)).woken = some a → (aw a).isFinished = true := by
    intro a hW ha
    cases hp : pc y with
    | suspended ret' old' =>
        rw [hp] at ha
        exact (h.asleep y a hW (by rw [hp]; exact ha)).2 (hrunning hW)
    | start => rw [hp] at ha; cases ha
    | unborn => exact absurd hp hborn
    | _ => rw [hp] at hoff; cases hoff
  have hres' : (resumed y old c (pc y)).ready = none ∧
      (resumed y old c (pc y)).asleep = none := by
    cases hp : pc y with
    | suspended => exact ⟨rfl, rfl⟩
    | start => exact ⟨rfl, rfl⟩
    | unborn => exact absurd hp hborn
    | _ => rw [hp] at hoff; cases hoff
  refine ⟨?_, ?_, ?_, ?_⟩
  · intro z hz ha
    by_cases hzy : z = y
    · subst hzy
      exact hrunning hz
    · exact hfirst.awake z hz (by rwa [Function.update_of_ne hzy] at ha)
  · intro z a hz ha
    by_cases hzy : z = y
    · subst hzy
      rw [Function.update_self, hres'.2] at ha
      cases ha
    · exact hfirst.asleep z a hz (by rwa [Function.update_of_ne hzy] at ha)
  · intro z a hz ha
    by_cases hzy : z = y
    · subst hzy
      exact hres a hz (by simpa using ha)
    · exact hfirst.woken z a hz (by rwa [Function.update_of_ne hzy] at ha)
  · intro z θ hθ hz
    by_cases hzy : z = y
    · subst hzy
      rw [Function.update_self, hres'.1] at hz
      cases hz
    · exact hfirst.target z θ hθ (by rwa [Function.update_of_ne hzy] at hz)

end Awake

end Scheduler

end Alterstack
