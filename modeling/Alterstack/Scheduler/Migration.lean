/-
  Alterstack.Scheduler.Migration — whose continuation is where, when tasks move
  between OS threads.

  `switch_to` and `_run_wrapper` on any number of OS threads, one access at a
  time, with `m_current_task` as it is: null until `get_current_task` is called.
  `jump_fcontext` resumes the stack whose continuation it is given, makes a new
  continuation of the stack it leaves, and delivers it with the data pointer to
  the resumed one.  Continuations of a stack are numbered, so that an old one
  is not taken for the latest.

  The fields `exec`, `jumpedFrom` and `made` are what the hardware knows; no
  step of the code reads them but for the jump itself.

  Main results:
    * `Migration.inv_jump` — the jump keeps every (task, continuation) pair
      matched;
    * `Migration.context_owned` — `prev_task` is the task the thread comes from,
      `current_task` the one it executes, and a suspended task has its own
      latest continuation.
-/
import Mathlib.Data.Fintype.Basic
import Alterstack.Scheduler.Code

namespace Alterstack

namespace Migration

open Lib
open Scheduler (TaskId)

variable {Θ T : Type*}

/-! ## §1. The machine. -/

/-- A continuation: the stack it resumes, and which of its continuations it is. -/
abbrev Fcontext (Θ T : Type*) := TaskId Θ T × ℕ

/-- The stores of `post_jump_fcontext`, and what follows them. -/
inductive PostPc where
  | clearCurrent
  | savePrev
  | enqueue
  deriving DecidableEq

/-- The control point of a stack: not constructed, never jumped to; outside the
two functions; in `switch_to` before `get_current_task`, `set_current_task` and
the jump; suspended there with the local `old_task`; in `_run_wrapper` before
`get_current_task`; in `post_jump_fcontext`. -/
inductive Pc (Θ T : Type*) where
  | unborn
  | start
  | user
  | switchTo (newTask : TaskId Θ T)
  | setCurrent (newTask oldTask : TaskId Θ T)
  | jump (newTask oldTask : TaskId Θ T)
  | suspended (oldTask : TaskId Θ T)
  | runWrapper (prevTask : TaskId Θ T) (fctx : Fcontext Θ T)
  | postJump (currentTask prevTask : TaskId Θ T) (fctx : Fcontext Θ T) (pc : PostPc)
  deriving DecidableEq

structure State (Θ T : Type*) where
  /-- `TaskRunner::m_current_task`, null at first -/
  currentTask : Θ → Option (TaskId Θ T)
  context : TaskId Θ T → Context (Fcontext Θ T)
  pc : TaskId Θ T → Pc Θ T
  /-- the stack that the thread executes, the one it executed before -/
  exec : Θ → TaskId Θ T
  jumpedFrom : Θ → TaskId Θ T
  /-- how many continuations of the stack were made by jumps -/
  made : TaskId Θ T → ℕ

/-- What the code around the two functions may do: construct a `Task` up to its
`switch_to`, call `switch_to`, clear or mark the `m_context` of the current task
(`insert_current_task_in_waitlist`); and a step of the two functions. -/
inductive Choice (Θ T : Type*) where
  | create (t : T)
  | switchTo (newTask : TaskId Θ T)
  | markContext (one : Bool)
  | run
  deriving DecidableEq

abbrev Label (Θ T : Type*) := Θ × Choice Θ T

/-- What `get_current_task` returns. -/
def State.getCurrentTask (s : State Θ T) (θ : Θ) : TaskId Θ T :=
  (s.currentTask θ).getD (.native θ)

variable [DecidableEq Θ] [DecidableEq T]

/-- `get_current_task`, and on to another point. -/
def withCurrentTask (s : State Θ T) (θ : Θ) (pc : TaskId Θ T → Pc Θ T) : State Θ T :=
  { s with
    currentTask := Function.update s.currentTask θ (some (s.getCurrentTask θ))
    pc := Function.update s.pc (s.exec θ) (pc (s.getCurrentTask θ)) }

/-- What a resumed stack does first. -/
def resumed (prevTask : TaskId Θ T) (fctx : Fcontext Θ T) : Pc Θ T → Pc Θ T
  | .suspended oldTask => .postJump oldTask prevTask fctx .clearCurrent
  | .start => .runWrapper prevTask fctx
  | pc => pc

/-- `jump_fcontext(new_task->m_context, old_task)` on the thread. -/
def jumpStep (s : State Θ T) (θ : Θ) (newTask oldTask : TaskId Θ T) : Option (State Θ T) :=
  match s.context newTask with
  | .fcontext (y, _) =>
      let x := s.exec θ
      some { s with
        made := Function.update s.made x (s.made x + 1)
        exec := Function.update s.exec θ y
        jumpedFrom := Function.update s.jumpedFrom θ x
        pc := Function.update (Function.update s.pc x (.suspended oldTask)) y
          (resumed oldTask (x, s.made x + 1) (s.pc y)) }
  | _ => none

/-- One step of the stack the thread executes. -/
def runStep (s : State Θ T) (θ : Θ) : Pc Θ T → Option (State Θ T)
  | .switchTo newTask => some (withCurrentTask s θ (.setCurrent newTask))
  | .setCurrent newTask oldTask =>
      some { s with
        currentTask := Function.update s.currentTask θ (some newTask)
        pc := Function.update s.pc (s.exec θ) (.jump newTask oldTask) }
  | .jump newTask oldTask => jumpStep s θ newTask oldTask
  | .runWrapper prevTask fctx =>
      some (withCurrentTask s θ (fun current => .postJump current prevTask fctx .clearCurrent))
  | .postJump currentTask prevTask fctx .clearCurrent =>
      some { s with
        context := Function.update s.context currentTask .null
        pc := Function.update s.pc (s.exec θ) (.postJump currentTask prevTask fctx .savePrev) }
  | .postJump currentTask prevTask fctx .savePrev =>
      some { s with
        context := Function.update s.context prevTask (.fcontext fctx)
        pc := Function.update s.pc (s.exec θ) (.postJump currentTask prevTask fctx .enqueue) }
  | .postJump _ _ _ .enqueue => some { s with pc := Function.update s.pc (s.exec θ) .user }
  | .unborn | .start | .user | .suspended _ => none

def step (s : State Θ T) : Label Θ T → Option (State Θ T)
  | (θ, .create t) =>
      if s.pc (s.exec θ) = .user ∧ s.pc (.unbound t) = .unborn then
        some { s with
          context := Function.update s.context (.unbound t) (.fcontext (.unbound t, 0))
          pc := Function.update s.pc (.unbound t) .start }
      else none
  | (θ, .switchTo newTask) =>
      if s.pc (s.exec θ) = .user then
        some { s with pc := Function.update s.pc (s.exec θ) (.switchTo newTask) }
      else none
  | (θ, .markContext one) =>
      if s.pc (s.exec θ) = .user then
        some { s with
          currentTask := Function.update s.currentTask θ (some (s.getCurrentTask θ))
          context := Function.update s.context (s.getCurrentTask θ) (if one then .one else .null) }
      else none
  | (θ, .run) => runStep s θ (s.pc (s.exec θ))

/-- Every thread executes its native task; no other task is constructed. -/
def initial : State Θ T where
  currentTask := fun _ => none
  context := fun _ => .null
  pc
    | .native _ => .user
    | .unbound _ => .unborn
  exec := .native
  jumpedFrom := .native
  made := fun _ => 0

def machine (Θ T : Type*) [DecidableEq Θ] [DecidableEq T] : Machine (State Θ T) (Label Θ T) where
  init := fun s => s = initial
  step := step

/-- The task to jump to. -/
def Pc.target : Pc Θ T → Option (TaskId Θ T)
  | .jump newTask _ => some newTask
  | _ => none

/-- The target of a jump is suspended, and its continuation published. -/
def ToSuspended (s : State Θ T) (l : Label Θ T) : Prop :=
  l.2 = .run → ∀ newTask ∈ (s.pc (s.exec l.1)).target,
    (∀ θ, s.exec θ ≠ newTask) ∧ ∃ fctx, s.context newTask = .fcontext fctx

instance : (c : Context (Fcontext Θ T)) → Decidable (∃ fctx, c = .fcontext fctx)
  | .fcontext fctx => isTrue ⟨fctx, rfl⟩
  | .null => isFalse nofun
  | .one => isFalse nofun

instance [Fintype Θ] (s : State Θ T) (l : Label Θ T) : Decidable (ToSuspended s l) :=
  inferInstanceAs (Decidable (_ → ∀ newTask ∈ (s.pc (s.exec l.1)).target, _))

/-! ## §2. The invariant. -/

/-- The store to `prev_task->m_context` that is still to come. -/
def Pc.pending : Pc Θ T → Option (TaskId Θ T × Fcontext Θ T)
  | .runWrapper prevTask fctx => some (prevTask, fctx)
  | .postJump _ prevTask fctx .clearCurrent => some (prevTask, fctx)
  | .postJump _ prevTask fctx .savePrev => some (prevTask, fctx)
  | _ => none

/-- Not resumed so recently that the old continuation is still in `m_context`. -/
def Pc.cleared : Pc Θ T → Bool
  | .runWrapper _ _ => false
  | .postJump _ _ _ .clearCurrent => false
  | _ => true

/-- The locals at a point of the executed stack `x`, where `current` is what
`get_current_task` returns and `from_` the stack executed before. -/
def Pc.Local (x current from_ : TaskId Θ T) : Pc Θ T → Prop
  | .user | .switchTo _ => current = x
  | .setCurrent _ oldTask => oldTask = x ∧ current = x
  | .jump newTask oldTask => oldTask = x ∧ current = newTask
  | .runWrapper prevTask _ => prevTask = from_ ∧ current = x
  | .postJump currentTask prevTask _ _ => currentTask = x ∧ prevTask = from_ ∧ current = x
  | .unborn | .start | .suspended _ => False

/-- The continuation of a task is not in its `m_context`. -/
def Hidden (c : Context (Fcontext Θ T)) : Prop := ∀ fctx, c ≠ .fcontext fctx

structure Inv (s : State Θ T) : Prop where
  locals : ∀ θ, (s.pc (s.exec θ)).Local (s.exec θ) (s.getCurrentTask θ) (s.jumpedFrom θ)
  excl : ∀ θ η, s.exec θ = s.exec η → θ = η
  idle : ∀ y, (∀ θ, s.exec θ ≠ y) → s.pc y = .unborn ∨ s.pc y = .start ∨ s.pc y = .suspended y
  unborn : ∀ y, s.pc y = .unborn → s.made y = 0 ∧ Hidden (s.context y)
  pending : ∀ θ y fctx, (s.pc (s.exec θ)).pending = some (y, fctx) →
    fctx = (y, s.made y) ∧ (∀ η, s.exec η ≠ y) ∧ s.pc y ≠ .unborn ∧ Hidden (s.context y)
  unique : ∀ θ η y fctx fctx', (s.pc (s.exec θ)).pending = some (y, fctx) →
    (s.pc (s.exec η)).pending = some (y, fctx') → θ = η
  published : ∀ y, (∀ θ, s.exec θ ≠ y) → s.pc y ≠ .unborn →
    (∃ θ fctx, (s.pc (s.exec θ)).pending = some (y, fctx)) ∨ s.context y = .fcontext (y, s.made y)
  owner : ∀ y fctx, s.context y = .fcontext fctx → fctx.1 = y
  cleared : ∀ θ, (s.pc (s.exec θ)).cleared = true → Hidden (s.context (s.exec θ))

variable {s s' : State Θ T} {θ : Θ}

omit [DecidableEq Θ] [DecidableEq T] in
theorem inv_initial : Inv (initial : State Θ T) := by
  refine ⟨fun θ => rfl, fun θ η h => by injection h, ?_, ?_, nofun, nofun, ?_, nofun, ?_⟩
  · intro y hy
    cases y with
    | native θ => exact absurd rfl (hy θ)
    | unbound t => exact .inl rfl
  · intro y _
    exact ⟨rfl, nofun⟩
  · intro y hy hborn
    cases y with
    | native θ => exact absurd rfl (hy θ)
    | unbound t => exact absurd rfl hborn
  · intro θ _
    exact nofun

/-! ## §3. The steps. -/

/-- A thread moves; the others stay where they are. -/
theorem Inv.pc_exec (h : Inv s) (p : Pc Θ T) (η : Θ) :
    Function.update s.pc (s.exec θ) p (s.exec η) = if η = θ then p else s.pc (s.exec η) := by
  by_cases hη : η = θ
  · simp [hη]
  · have hne : s.exec η ≠ s.exec θ := fun heq => hη (h.excl η θ heq)
    rw [Function.update_of_ne hne, if_neg hη]

omit [DecidableEq Θ] [DecidableEq T] in
theorem Pc.Local.ne_unborn {x c f : TaskId Θ T} {p : Pc Θ T} (h : p.Local x c f) :
    p ≠ .unborn := by
  rintro rfl
  exact h

/-- A step that makes and stores no continuation: the thread moves, the
`m_context` of its own task is cleared or left alone. -/
theorem Inv.stay (h : Inv s) {c : Option (TaskId Θ T)} {p : Pc Θ T} {v : Context (Fcontext Θ T)}
    (hp : p.pending = (s.pc (s.exec θ)).pending)
    (hl : p.Local (s.exec θ) (c.getD (.native θ)) (s.jumpedFrom θ))
    (hv : v = s.context (s.exec θ) ∧ (p.cleared = true → (s.pc (s.exec θ)).cleared = true) ∨
      Hidden v) :
    Inv { s with
      currentTask := Function.update s.currentTask θ c
      context := Function.update s.context (s.exec θ) v
      pc := Function.update s.pc (s.exec θ) p } := by
  have hpending : ∀ η, (Function.update s.pc (s.exec θ) p (s.exec η)).pending =
      (s.pc (s.exec η)).pending := by
    intro η
    rw [h.pc_exec]
    split
    next hη => rw [hp, hη]
    next => rfl
  refine ⟨fun η => ?locals, h.excl, fun y hy => ?idle, fun y hy => ?unborn,
    fun η y fctx hη => ?pending, fun η η' y fctx fctx' hη hη' => ?unique,
    fun y hy hborn => ?published, fun y fctx hy => ?owner, fun η hη => ?cleared⟩
  case locals =>
    show (Function.update s.pc (s.exec θ) p (s.exec η)).Local _ _ _
    rw [h.pc_exec]
    by_cases hη : η = θ
    · subst hη
      simpa [State.getCurrentTask] using hl
    · simpa [State.getCurrentTask, hη] using h.locals η
  case idle =>
    have hne : y ≠ s.exec θ := Ne.symm (hy θ)
    simpa [hne] using h.idle y hy
  case unborn =>
    have hne : y ≠ s.exec θ := by
      rintro rfl
      simp only [Function.update_self] at hy
      exact hl.ne_unborn hy
    simpa [hne] using h.unborn y (by simpa [hne] using hy)
  -- pending stores are of stacks nobody executes, so not of this one
  case pending =>
    rw [hpending] at hη
    obtain ⟨hf, hexec, hborn, hhidden⟩ := h.pending η y fctx hη
    have hne : y ≠ s.exec θ := Ne.symm (hexec θ)
    exact ⟨hf, hexec, by simpa [hne] using hborn, by simpa [hne] using hhidden⟩
  case unique =>
    rw [hpending] at hη hη'
    exact h.unique η η' y fctx fctx' hη hη'
  case published =>
    have hne : y ≠ s.exec θ := Ne.symm (hy θ)
    simp only [Function.update_of_ne hne] at hborn ⊢
    simp only [hpending]
    exact h.published y hy hborn
  case owner =>
    by_cases hne : y = s.exec θ
    · subst hne
      simp only [Function.update_self] at hy
      rcases hv with ⟨rfl, -⟩ | hv
      · exact h.owner _ fctx hy
      · exact absurd hy (hv fctx)
    · simp only [Function.update_of_ne hne] at hy
      exact h.owner y fctx hy
  case cleared =>
    dsimp only at hη
    rw [h.pc_exec] at hη
    show Hidden (Function.update s.context (s.exec θ) v (s.exec η))
    by_cases hηθ : η = θ
    · subst hηθ
      rw [Function.update_self]
      rcases hv with ⟨rfl, hcl⟩ | hv
      · exact h.cleared η (hcl (by simpa using hη))
      · exact hv
    · have hne : s.exec η ≠ s.exec θ := fun heq => hηθ (h.excl η θ heq)
      rw [Function.update_of_ne hne]
      exact h.cleared η (by simpa [hηθ] using hη)

/-- The pending store is made. -/
theorem Inv.save (h : Inv s) {current prev : TaskId Θ T} {fctx : Fcontext Θ T}
    (hpc : s.pc (s.exec θ) = .postJump current prev fctx .savePrev) :
    Inv { s with
      context := Function.update s.context prev (.fcontext fctx)
      pc := Function.update s.pc (s.exec θ) (.postJump current prev fctx .enqueue) } := by
  have hpend : (s.pc (s.exec θ)).pending = some (prev, fctx) := by
    rw [hpc]
    rfl
  obtain ⟨hfctx, hexec, hborn, -⟩ := h.pending θ prev fctx hpend
  have hlocal := h.locals θ
  rw [hpc] at hlocal
  -- nobody else has a store to this task to make
  have hother : ∀ η y f, (Function.update s.pc (s.exec θ) (.postJump current prev fctx .enqueue)
      (s.exec η)).pending = some (y, f) ↔ η ≠ θ ∧ (s.pc (s.exec η)).pending = some (y, f) := by
    intro η y f
    rw [h.pc_exec]
    by_cases hη : η = θ
    · simp [hη, Pc.pending]
    · simp [hη]
  have hprev : ∀ η f, η ≠ θ → (s.pc (s.exec η)).pending ≠ some (prev, f) := fun η f hη hp =>
    hη (h.unique η θ prev f fctx hp hpend)
  refine ⟨fun η => ?locals, h.excl, fun y hy => ?idle, fun y hy => ?unborn,
    fun η y f hη => ?pending, fun η η' y f f' hη hη' => ?unique, fun y hy hyborn => ?published,
    fun y f hy => ?owner, fun η hη => ?cleared⟩
  case locals =>
    show (Function.update s.pc (s.exec θ) _ (s.exec η)).Local _ _ _
    rw [h.pc_exec]
    by_cases hη : η = θ
    · subst hη
      rw [if_pos rfl]
      exact hlocal
    · rw [if_neg hη]
      exact h.locals η
  case idle =>
    have hne : y ≠ s.exec θ := Ne.symm (hy θ)
    simpa [hne] using h.idle y hy
  case unborn =>
    have hne : y ≠ s.exec θ := by
      rintro rfl
      simp at hy
    simp only [Function.update_of_ne hne] at hy
    have hyp : y ≠ prev := fun heq => hborn (heq ▸ hy)
    simpa [hyp] using h.unborn y hy
  case pending =>
    obtain ⟨hηθ, hη⟩ := (hother η y f).mp hη
    obtain ⟨hf, hyexec, hyborn, hhidden⟩ := h.pending η y f hη
    have hne : y ≠ s.exec θ := Ne.symm (hyexec θ)
    have hyp : y ≠ prev := fun heq => hprev η f hηθ (heq ▸ hη)
    exact ⟨hf, hyexec, by simpa [hne] using hyborn, by simpa [hyp] using hhidden⟩
  case unique =>
    exact h.unique η η' y f f' ((hother η y f).mp hη).2 ((hother η' y f').mp hη').2
  case published =>
    by_cases hyp : y = prev
    · subst hyp
      exact .inr (by simp [hfctx])
    · have hne : y ≠ s.exec θ := Ne.symm (hy θ)
      simp only [Function.update_of_ne hne, Function.update_of_ne hyp] at hyborn ⊢
      rcases h.published y hy hyborn with ⟨η, f, hη⟩ | hcontext
      · refine .inl ⟨η, f, (hother η y f).mpr ⟨?_, hη⟩⟩
        rintro rfl
        rw [hpend] at hη
        injection hη with hη
        exact hyp (congrArg Prod.fst hη).symm
      · exact .inr hcontext
  case owner =>
    by_cases hyp : y = prev
    · subst hyp
      simp only [Function.update_self, Context.fcontext.injEq] at hy
      rw [← hy, hfctx]
    · simp only [Function.update_of_ne hyp] at hy
      exact h.owner y f hy
  case cleared =>
    have hyp : s.exec η ≠ prev := hexec η
    dsimp only at hη
    rw [h.pc_exec] at hη
    show Hidden (Function.update s.context prev (.fcontext fctx) (s.exec η))
    rw [Function.update_of_ne hyp]
    by_cases hηθ : η = θ
    · subst hηθ
      exact h.cleared η (by rw [hpc]; rfl)
    · exact h.cleared η (by simpa [hηθ] using hη)

/-- A task is constructed. -/
theorem Inv.create (h : Inv s) {t : T} (ht : s.pc (.unbound t) = .unborn) :
    Inv { s with
      context := Function.update s.context (.unbound t) (.fcontext (.unbound t, 0))
      pc := Function.update s.pc (.unbound t) .start } := by
  obtain ⟨hmade, hhidden⟩ := h.unborn _ ht
  have hexec : ∀ η, s.exec η ≠ .unbound t := by
    intro η heq
    have := h.locals η
    rw [heq, ht] at this
    exact this
  have hpc : ∀ η, Function.update s.pc (.unbound t) .start (s.exec η) = s.pc (s.exec η) :=
    fun η => Function.update_of_ne (hexec η) _ _
  refine ⟨fun η => ?locals, h.excl, fun y hy => ?idle, fun y hy => ?unborn,
    fun η y f hη => ?pending, fun η η' y f f' hη hη' => ?unique, fun y hy hyborn => ?published,
    fun y f hy => ?owner, fun η hη => ?cleared⟩
  case locals =>
    show (Function.update s.pc (.unbound t) .start (s.exec η)).Local _ _ _
    rw [hpc]
    exact h.locals η
  case idle =>
    by_cases hyt : y = .unbound t
    · subst hyt
      simp
    · simpa [hyt] using h.idle y hy
  case unborn =>
    have hyt : y ≠ .unbound t := by
      rintro rfl
      simp at hy
    simp only [Function.update_of_ne hyt] at hy ⊢
    exact h.unborn y hy
  case pending =>
    dsimp only at hη
    rw [hpc] at hη
    obtain ⟨hf, hyexec, hyborn, hyhidden⟩ := h.pending η y f hη
    have hyt : y ≠ .unbound t := fun heq => hyborn (heq ▸ ht)
    exact ⟨hf, hyexec, by simpa [hyt] using hyborn, by simpa [hyt] using hyhidden⟩
  case unique =>
    dsimp only at hη hη'
    rw [hpc] at hη hη'
    exact h.unique η η' y f f' hη hη'
  -- its continuation number 0 is published by the constructor
  case published =>
    by_cases hyt : y = .unbound t
    · subst hyt
      exact .inr (by simp [hmade])
    · simp only [Function.update_of_ne hyt, hpc] at hyborn ⊢
      exact h.published y hy hyborn
  case owner =>
    by_cases hyt : y = .unbound t
    · subst hyt
      simp only [Function.update_self, Context.fcontext.injEq] at hy
      rw [← hy]
    · simp only [Function.update_of_ne hyt] at hy
      exact h.owner y f hy
  case cleared =>
    dsimp only at hη
    rw [hpc] at hη
    show Hidden (Function.update s.context (.unbound t) _ (s.exec η))
    rw [Function.update_of_ne (hexec η)]
    exact h.cleared η hη

omit [DecidableEq Θ] [DecidableEq T] in
/-- What the target of a jump has published is its own latest continuation. -/
theorem Inv.target (h : Inv s) {new : TaskId Θ T} (hexec : ∀ η, s.exec η ≠ new)
    {fctx : Fcontext Θ T} (hcontext : s.context new = .fcontext fctx) :
    fctx = (new, s.made new) ∧ (s.pc new = .start ∨ s.pc new = .suspended new) := by
  have hborn : s.pc new ≠ .unborn := fun hunborn =>
    (h.unborn new hunborn).2 fctx hcontext
  constructor
  · rcases h.published new hexec hborn with ⟨η, f, hη⟩ | hlatest
    · exact absurd hcontext ((h.pending η new f hη).2.2.2 fctx)
    · rw [hlatest] at hcontext
      injection hcontext with heq
      exact heq.symm
  · exact (h.idle new hexec).resolve_left hborn

omit [DecidableEq Θ] [DecidableEq T] in
/-- A stack that can be resumed goes to `post_jump_fcontext` with the pair it
was given. -/
theorem resumed_spec {y : TaskId Θ T} {p : Pc Θ T} (prev : TaskId Θ T) (fctx : Fcontext Θ T)
    (hp : p = .start ∨ p = .suspended y) :
    (resumed prev fctx p).pending = some (prev, fctx) ∧ (resumed prev fctx p).Local y y prev ∧
      (resumed prev fctx p).cleared = false := by
  rcases hp with rfl | rfl
  · exact ⟨rfl, ⟨rfl, rfl⟩, rfl⟩
  · exact ⟨rfl, ⟨rfl, rfl, rfl⟩, rfl⟩

/-! ## §4. The jump. -/

/-- The thread has left its stack for that of `y`, which goes on at `p`. -/
def afterJump (s : State Θ T) (θ : Θ) (y : TaskId Θ T) (p : Pc Θ T) : State Θ T :=
  { s with
    made := Function.update s.made (s.exec θ) (s.made (s.exec θ) + 1)
    exec := Function.update s.exec θ y
    jumpedFrom := Function.update s.jumpedFrom θ (s.exec θ)
    pc := Function.update (Function.update s.pc (s.exec θ) (.suspended (s.exec θ))) y p }

section AfterJump

variable {y z : TaskId Θ T} {p : Pc Θ T} {η : Θ} {f : Fcontext Θ T}

@[simp] theorem afterJump_exec_self : (afterJump s θ y p).exec θ = y := Function.update_self _ _ _

theorem afterJump_exec (hη : η ≠ θ) : (afterJump s θ y p).exec η = s.exec η :=
  Function.update_of_ne hη _ _

@[simp] theorem afterJump_pc_self : (afterJump s θ y p).pc y = p := Function.update_self _ _ _

theorem afterJump_pc (hzx : z ≠ s.exec θ) (hzy : z ≠ y) : (afterJump s θ y p).pc z = s.pc z := by
  show Function.update (Function.update s.pc (s.exec θ) _) y p z = s.pc z
  rw [Function.update_of_ne hzy, Function.update_of_ne hzx]

theorem afterJump_pc_left (hexec : ∀ η, s.exec η ≠ y) :
    (afterJump s θ y p).pc (s.exec θ) = .suspended (s.exec θ) := by
  show Function.update (Function.update s.pc (s.exec θ) _) y p (s.exec θ) = _
  rw [Function.update_of_ne (hexec θ), Function.update_self]

theorem afterJump_made (hz : z ≠ s.exec θ) : (afterJump s θ y p).made z = s.made z :=
  Function.update_of_ne hz _ _

/-- The other threads stay where they are. -/
theorem Inv.afterJump_pc_exec (h : Inv s) (hexec : ∀ η, s.exec η ≠ y) (hη : η ≠ θ) :
    (afterJump s θ y p).pc ((afterJump s θ y p).exec η) = s.pc (s.exec η) := by
  have hηx : s.exec η ≠ s.exec θ := fun heq => hη (h.excl η θ heq)
  rw [afterJump_exec hη, afterJump_pc hηx (hexec η)]

/-- A stack that nobody executes now was not executed before, or has been left. -/
theorem afterJump_free (hz : ∀ η, (afterJump s θ y p).exec η ≠ z) :
    z ≠ y ∧ (z ≠ s.exec θ → ∀ η, s.exec η ≠ z) := by
  refine ⟨fun heq => hz θ (by rw [heq]; exact afterJump_exec_self), fun hzx η heq => ?_⟩
  by_cases hη : η = θ
  · subst hη
    exact hzx heq.symm
  · exact hz η (by rw [afterJump_exec hη]; exact heq)

/-- A stack that nobody executed and that is not resumed stays free. -/
theorem afterJump_not_exec (hz : ∀ η, η ≠ θ → s.exec η ≠ z) (hzy : z ≠ y) (η : Θ) :
    (afterJump s θ y p).exec η ≠ z := by
  by_cases hη : η = θ
  · subst hη
    rw [afterJump_exec_self]
    exact Ne.symm hzy
  · rw [afterJump_exec hη]
    exact hz η hη

/-- The resumed stack has to store the new continuation; the stores that were
pending before still are. -/
theorem Inv.afterJump_pending (h : Inv s) (hexec : ∀ η, s.exec η ≠ y)
    (hpend : p.pending = some (s.exec θ, s.exec θ, s.made (s.exec θ) + 1))
    (hη : ((afterJump s θ y p).pc ((afterJump s θ y p).exec η)).pending = some (z, f)) :
    η = θ ∧ z = s.exec θ ∧ f = (s.exec θ, s.made (s.exec θ) + 1) ∨
      η ≠ θ ∧ (s.pc (s.exec η)).pending = some (z, f) := by
  by_cases hηθ : η = θ
  · subst hηθ
    rw [afterJump_exec_self, afterJump_pc_self, hpend] at hη
    simp only [Option.some.injEq, Prod.mk.injEq] at hη
    exact .inl ⟨rfl, hη.1.symm, hη.2.symm⟩
  · rw [h.afterJump_pc_exec hexec hηθ] at hη
    exact .inr ⟨hηθ, hη⟩

/-- A thread with no store to make leaves its stack for a published one. -/
theorem Inv.jump (h : Inv s) (hnothing : (s.pc (s.exec θ)).pending = none)
    (hhidden : Hidden (s.context (s.exec θ))) (hexec : ∀ η, s.exec η ≠ y)
    (hcontext : s.context y = .fcontext f) (hcurrent : s.getCurrentTask θ = y)
    (hpend : p.pending = some (s.exec θ, s.exec θ, s.made (s.exec θ) + 1))
    (hloc : p.Local y y (s.exec θ)) (hcl : p.cleared = false) : Inv (afterJump s θ y p) := by
  have hne : s.exec θ ≠ y := hexec θ
  refine ⟨fun η => ?locals, fun η η' heq => ?excl, fun z hz => ?idle, fun z hz => ?unborn,
    fun η z f' hη => ?pending, fun η η' z f' f'' hη hη' => ?unique,
    fun z hz hzborn => ?published, h.owner, fun η hη => ?cleared⟩
  case locals =>
    by_cases hη : η = θ
    · subst hη
      rw [afterJump_exec_self, afterJump_pc_self]
      show p.Local y (s.getCurrentTask η) (Function.update s.jumpedFrom η (s.exec η) η)
      rw [hcurrent, Function.update_self]
      exact hloc
    · rw [h.afterJump_pc_exec hexec hη, afterJump_exec hη]
      show (s.pc (s.exec η)).Local _ (s.getCurrentTask η) (Function.update s.jumpedFrom θ _ η)
      rw [Function.update_of_ne hη]
      exact h.locals η
  case excl =>
    -- nobody executed the resumed stack
    by_cases hη : η = θ <;> by_cases hη' : η' = θ
    · exact hη.trans hη'.symm
    · rw [hη, afterJump_exec_self, afterJump_exec hη'] at heq
      exact absurd heq.symm (hexec η')
    · rw [hη', afterJump_exec_self, afterJump_exec hη] at heq
      exact absurd heq (hexec η)
    · rw [afterJump_exec hη, afterJump_exec hη'] at heq
      exact h.excl η η' heq
  case idle =>
    obtain ⟨hzy, hzfree⟩ := afterJump_free hz
    by_cases hzx : z = s.exec θ
    · subst hzx
      exact .inr (.inr (afterJump_pc_left hexec))
    · rw [afterJump_pc hzx hzy]
      exact h.idle z (hzfree hzx)
  case unborn =>
    have hzx : z ≠ s.exec θ := by
      rintro rfl
      rw [afterJump_pc_left hexec] at hz
      cases hz
    have hzy : z ≠ y := by
      rintro rfl
      rw [afterJump_pc_self] at hz
      exact hloc.ne_unborn hz
    rw [afterJump_pc hzx hzy] at hz
    rw [afterJump_made hzx]
    exact h.unborn z hz
  case pending =>
    rcases h.afterJump_pending hexec hpend hη with ⟨-, rfl, rfl⟩ | ⟨-, hold⟩
    · refine ⟨?_, ?_, by rw [afterJump_pc_left hexec]; nofun, hhidden⟩
      · show _ = (s.exec θ, Function.update s.made (s.exec θ) _ (s.exec θ))
        rw [Function.update_self]
      · exact afterJump_not_exec (fun η hη heq => hη (h.excl η θ heq)) hne
    · obtain ⟨hf, hzexec, hzborn, hzhidden⟩ := h.pending η z f' hold
      have hzx : z ≠ s.exec θ := Ne.symm (hzexec θ)
      have hzy : z ≠ y := fun heq => hzhidden f (heq ▸ hcontext)
      rw [afterJump_made hzx, afterJump_pc hzx hzy]
      exact ⟨hf, afterJump_not_exec (fun η _ => hzexec η) hzy, hzborn, hzhidden⟩
  case unique =>
    -- the task just left was executed, so that no store to it was pending
    rcases h.afterJump_pending hexec hpend hη with ⟨hηθ, hz, -⟩ | ⟨-, hold⟩
    · rcases h.afterJump_pending hexec hpend hη' with ⟨hη'θ, -, -⟩ | ⟨-, hold'⟩
      · exact hηθ.trans hη'θ.symm
      · exact absurd hz.symm ((h.pending η' z f'' hold').2.1 θ)
    · rcases h.afterJump_pending hexec hpend hη' with ⟨-, hz, -⟩ | ⟨-, hold'⟩
      · exact absurd hz.symm ((h.pending η z f' hold).2.1 θ)
      · exact h.unique η η' z f' f'' hold hold'
  case published =>
    obtain ⟨hzy, hzfree⟩ := afterJump_free hz
    by_cases hzx : z = s.exec θ
    · subst hzx
      refine .inl ⟨θ, (s.exec θ, s.made (s.exec θ) + 1), ?_⟩
      rw [afterJump_exec_self, afterJump_pc_self, hpend]
    · rw [afterJump_pc hzx hzy] at hzborn
      rw [afterJump_made hzx]
      rcases h.published z (hzfree hzx) hzborn with ⟨η, f', hη⟩ | hlatest
      · have hηθ : η ≠ θ := by
          rintro rfl
          rw [hnothing] at hη
          cases hη
        refine .inl ⟨η, f', ?_⟩
        rw [h.afterJump_pc_exec hexec hηθ]
        exact hη
      · exact .inr hlatest
  case cleared =>
    by_cases hηθ : η = θ
    · subst hηθ
      rw [afterJump_exec_self, afterJump_pc_self, hcl] at hη
      cases hη
    · rw [h.afterJump_pc_exec hexec hηθ] at hη
      rw [afterJump_exec hηθ]
      exact h.cleared η hη

end AfterJump

/-- **The jump.**  The thread is now in `post_jump_fcontext`, or on the way to
it, on the stack of the target; the new continuation is the store to make. -/
theorem inv_jump (h : Inv s) {new old : TaskId Θ T} (hpc : s.pc (s.exec θ) = .jump new old)
    (hexec : ∀ η, s.exec η ≠ new) (hstep : jumpStep s θ new old = some s') : Inv s' := by
  unfold jumpStep at hstep
  split at hstep
  next y n hcontext =>
    obtain ⟨hfctx, hready⟩ := h.target hexec hcontext
    obtain rfl : y = new := congrArg Prod.fst hfctx
    have hlocal := h.locals θ
    rw [hpc] at hlocal
    obtain ⟨rfl, hcurrent⟩ := hlocal
    cases hstep
    obtain ⟨hpend, hloc, hcl⟩ := resumed_spec (s.exec θ) (s.exec θ, s.made (s.exec θ) + 1) hready
    exact h.jump (by rw [hpc]; rfl) (h.cleared θ (by rw [hpc]; rfl)) hexec hcontext hcurrent
      hpend hloc hcl
  next => cases hstep

/-! ## §5. All steps. -/

/-- A step of the two functions, the jump apart, by the point it is taken from. -/
theorem inv_run (h : Inv s) {p : Pc Θ T} (hpc : s.pc (s.exec θ) = p)
    (hok : ∀ new ∈ p.target,
      (∀ η, s.exec η ≠ new) ∧ ∃ fctx, s.context new = .fcontext fctx)
    (hstep : runStep s θ p = some s') : Inv s' := by
  have hlocal := h.locals θ
  rw [hpc] at hlocal
  have hself : Function.update s.context (s.exec θ) (s.context (s.exec θ)) = s.context :=
    Function.update_eq_self _ _
  have hcurrent : Function.update s.currentTask θ (s.currentTask θ) = s.currentTask :=
    Function.update_eq_self _ _
  cases p with
  | unborn | start | user | suspended _ => cases hstep
  | switchTo new =>
    cases hstep
    have hget : s.getCurrentTask θ = s.exec θ := hlocal
    have hnew := h.stay (θ := θ) (c := some (s.getCurrentTask θ))
      (p := .setCurrent new (s.getCurrentTask θ)) (v := s.context (s.exec θ))
      (by rw [hpc]; rfl) ⟨hget, hget⟩ (.inl ⟨rfl, fun _ => by rw [hpc]; rfl⟩)
    rw [hself] at hnew
    exact hnew
  | setCurrent new old =>
    cases hstep
    have hnew := h.stay (θ := θ) (c := some new) (p := .jump new old)
      (v := s.context (s.exec θ)) (by rw [hpc]; rfl) ⟨hlocal.1, rfl⟩
      (.inl ⟨rfl, fun _ => by rw [hpc]; rfl⟩)
    rw [hself] at hnew
    exact hnew
  | jump new old => exact inv_jump h hpc (hok new rfl).1 hstep
  -- a stack that has never been jumped to starts in `_run_wrapper`
  | runWrapper prev fctx =>
    cases hstep
    obtain ⟨hprev, hget⟩ := hlocal
    have hnew := h.stay (θ := θ) (c := some (s.getCurrentTask θ))
      (p := .postJump (s.getCurrentTask θ) prev fctx .clearCurrent) (v := s.context (s.exec θ))
      (by rw [hpc]; rfl) ⟨hget, hprev, hget⟩ (.inl ⟨rfl, nofun⟩)
    rw [hself] at hnew
    exact hnew
  | postJump current prev fctx pc =>
    obtain ⟨rfl, hprev, hget⟩ := hlocal
    cases pc with
    | clearCurrent =>
      cases hstep
      have hnew := h.stay (θ := θ) (c := s.currentTask θ)
        (p := .postJump (s.exec θ) prev fctx .savePrev) (v := .null)
        (by rw [hpc]; rfl) ⟨rfl, hprev, hget⟩ (.inr nofun)
      rw [hcurrent] at hnew
      exact hnew
    | savePrev =>
      cases hstep
      exact h.save hpc
    | enqueue =>
      cases hstep
      have hnew := h.stay (θ := θ) (c := s.currentTask θ) (p := .user)
        (v := s.context (s.exec θ)) (by rw [hpc]; rfl) hget
        (.inl ⟨rfl, fun _ => by rw [hpc]; rfl⟩)
      rw [hself, hcurrent] at hnew
      exact hnew

theorem inv_step {l : Label Θ T} (h : Inv s) (hok : ToSuspended s l) (hstep : step s l = some s') :
    Inv s' := by
  obtain ⟨θ, c⟩ := l
  cases c with
  | create t =>
    simp only [step, Option.ite_none_right_eq_some] at hstep
    obtain ⟨⟨-, ht⟩, hstep⟩ := hstep
    cases hstep
    exact h.create ht
  | switchTo new =>
    simp only [step, Option.ite_none_right_eq_some] at hstep
    obtain ⟨huser, hstep⟩ := hstep
    cases hstep
    have hlocal := h.locals θ
    rw [huser] at hlocal
    have hnew := h.stay (θ := θ) (c := s.currentTask θ) (p := .switchTo new)
      (v := s.context (s.exec θ)) (by rw [huser]; rfl) hlocal
      (.inl ⟨rfl, fun _ => by rw [huser]; rfl⟩)
    rw [Function.update_eq_self, Function.update_eq_self] at hnew
    exact hnew
  -- an insertion in a waiting list marks or clears the context of its own task
  | markContext one =>
    simp only [step, Option.ite_none_right_eq_some] at hstep
    obtain ⟨huser, hstep⟩ := hstep
    cases hstep
    have hlocal := h.locals θ
    rw [huser] at hlocal
    have hget : s.getCurrentTask θ = s.exec θ := hlocal
    have hhidden : Hidden (if one then .one else .null : Context (Fcontext Θ T)) := by
      intro fctx hfctx
      split at hfctx <;> cases hfctx
    have hnew := h.stay (θ := θ) (c := some (s.getCurrentTask θ)) (p := .user)
      (by rw [huser]) hget (.inr hhidden)
    rw [← huser, Function.update_eq_self, hget] at hnew
    rw [hget]
    exact hnew
  | run => exact inv_run h rfl (hok rfl) hstep

theorem inv_reach (h : (machine Θ T).Reach ToSuspended s) : Inv s :=
  h.invariant (fun _ hs => hs ▸ inv_initial) (fun _ _ _ hs hok hstep => inv_step hs hok hstep)

/-! ## §6. Every task has its own continuation. -/

omit [DecidableEq Θ] [DecidableEq T] in
/-- Outside the jump `get_current_task` names the executed task. -/
theorem Inv.current (h : Inv s) (θ : Θ) (hjump : (s.pc (s.exec θ)).target = none) :
    s.getCurrentTask θ = s.exec θ := by
  have hlocal := h.locals θ
  cases hpc : s.pc (s.exec θ) with
  | user | switchTo _ =>
    rw [hpc] at hlocal
    exact hlocal
  | setCurrent _ _ | runWrapper _ _ =>
    rw [hpc] at hlocal
    exact hlocal.2
  | postJump _ _ _ _ =>
    rw [hpc] at hlocal
    exact hlocal.2.2
  | jump _ _ =>
    rw [hpc] at hjump
    cases hjump
  | unborn | start | suspended _ =>
    rw [hpc] at hlocal
    exact hlocal.elim

/-- **Context ownership.**  In `post_jump_fcontext` the thread executes
`current_task` and comes from `prev_task`; outside the jump `current_task()`
names the task whose stack the thread executes; a suspended task whose
continuation is not still to be stored has its own latest one, and no task ever
has that of another. -/
theorem context_owned (h : (machine Θ T).Reach ToSuspended s) :
    (∀ θ currentTask prevTask fctx pc,
      s.pc (s.exec θ) = .postJump currentTask prevTask fctx pc →
      prevTask = s.jumpedFrom θ ∧ currentTask = s.exec θ) ∧
    (∀ θ, (s.pc (s.exec θ)).target = none → s.getCurrentTask θ = s.exec θ) ∧
    (∀ y, (∀ θ, s.exec θ ≠ y) → s.pc y ≠ .unborn →
      (∀ θ fctx, (s.pc (s.exec θ)).pending ≠ some (y, fctx)) →
      s.context y = .fcontext (y, s.made y)) ∧
    ∀ y fctx, s.context y = .fcontext fctx → fctx.1 = y := by
  have hinv := inv_reach h
  refine ⟨fun θ current prev fctx pc hpc => ?_, hinv.current, fun y hy hborn hstored => ?_,
    hinv.owner⟩
  · have hlocal := hinv.locals θ
    rw [hpc] at hlocal
    exact ⟨hlocal.2.1, hlocal.1⟩
  · exact (hinv.published y hy hborn).resolve_left (fun ⟨θ, fctx, hp⟩ => hstored θ fctx hp)

/-- One thread constructs a task, runs it and switches back; another thread then
switches to it. -/
def migration : List (Label Bool Unit) :=
  [(false, .create ()), (false, .switchTo (.unbound ()))] ++ List.replicate 7 (false, .run) ++
    [(false, .switchTo (.native false))] ++ List.replicate 6 (false, .run) ++
    [(true, .switchTo (.unbound ()))] ++ List.replicate 5 (true, .run)

theorem context_owned_migration : ∃ s : State Bool Unit,
    (machine Bool Unit).Reach ToSuspended s ∧ s.exec true = .unbound () ∧
      s.pc (.unbound ()) =
        .postJump (.unbound ()) (.native true) (.native true, 1) .enqueue ∧
      .native true = s.jumpedFrom true := by
  obtain ⟨s, hs, hp⟩ := Machine.exists_reach_of_replayOk (machine Bool Unit) ToSuspended migration
    (fun s => s.exec true == .unbound () &&
      s.pc (.unbound ()) == .postJump (.unbound ()) (.native true) (.native true, 1) .enqueue) rfl
    (by decide +kernel)
  simp only [Bool.and_eq_true, beq_iff_eq] at hp
  obtain ⟨hexec, hpc⟩ := hp
  have howned := (context_owned hs).1 true (.unbound ()) (.native true) (.native true, 1) .enqueue
    (by rw [hexec]; exact hpc)
  exact ⟨s, hs, hexec, hpc, howned.1⟩

end Migration

end Alterstack
