/-
  Alterstack.Scheduler.Accesses — what an access of a control point does.

  The calls that are in progress on a stack, the stores that a control point is
  about to make, and one lemma for each function: where its steps lead and what
  they write.

  Main results:
    * `goStep_cases` — an access of a control point, the switch apart;
    * `inner_pickStep` — the look into the running queue.
-/
import Alterstack.Scheduler.Invariant

namespace Alterstack

namespace Scheduler

open Awaitable (InsertPc InsertNext insertStep ReleasePc ReleaseNext releaseStep)

variable {Θ T A : Type*}

/-! ## §1. Calls in progress, and what a control point writes. -/

/-- A call in progress: the constructor and the destructor of a `Task`, its
`join`, the end of `_run_wrapper` after `m_runnable`, and `release`. -/
inductive Call (Θ T A : Type*) where
  | ctor (t : T)
  | dtor (t : T)
  | join (x : TaskId Θ T)
  | finish
  | release (ret : ReleaseRet Θ T) (a : AwId Θ T A)
  deriving DecidableEq

def SchedRet.calls : SchedRet Θ T A → List (Call Θ T A)
  | .ctor t => [.ctor t]
  | .dtor t => [.dtor t]
  | .finished => [.finish]
  | _ => []

def ReleaseRet.calls : ReleaseRet Θ T → List (Call Θ T A)
  | .dtor t => [.dtor t]
  | .finish _ => [.finish]
  | _ => []

/-- `wait` on `m_awaitable` is part of `join`. -/
def AwId.calls : AwId Θ T A → List (Call Θ T A)
  | .own x => [.join x]
  | .user _ => []

namespace Pc

def calls : Pc Θ T A → List (Call Θ T A)
  | .insert a _ _ => a.calls
  | .joinState t => [.join (.unbound t)]
  | .schedule ret _ _ | .switchTo ret _ | .suspended ret _ | .postJump ret _ _ _ _ => ret.calls
  | .release ret a _ | .addState ret a _ _ | .addNotify ret a _ _ _ | .addContext ret a _ _ _
  | .addEnqueue ret a _ _ _ | .delayedContext ret a _ _ | .delayedEnqueue ret a _ _ =>
      .release ret a :: ret.calls
  | .finishState _ => [.finish]
  | .dtorState t | .dtorContext t | .dtorFree t => [.dtor t]
  | _ => []

/-- The bound task that is about to be notified. -/
def notifying : Pc Θ T A → Option (TaskId Θ T)
  | .addNotify _ _ _ _ task => some task
  | _ => none

/-- The next store to an `m_state`. -/
def stateStore : Pc Θ T A → Option (TaskId Θ T × TaskState)
  | .insert _ currentTask (.setState _) => some (currentTask, .waiting)
  | .insert _ currentTask .undoState => some (currentTask, .running)
  | .addState _ _ task _ => some (task, .running)
  | .finishState current => some (current, .finished)
  | .exitState this => some (this, .finished)
  | _ => none

/-- The next store to an `m_context`. -/
def contextStore : Pc Θ T A → Option (TaskId Θ T × Context (TaskId Θ T))
  | .insert _ currentTask (.setContext _) => some (currentTask, .null)
  | .insert _ currentTask .undoContext => some (currentTask, .one)
  | .postJump _ currentTask _ _ .clearCurrent => some (currentTask, .null)
  | .postJump _ _ prevTask fctx .savePrev => some (prevTask, fctx)
  | _ => none

/-- Points that a stack reaches only by an access of its own. -/
def guarded : Pc Θ T A → Bool
  | .joinRet _ | .dtorContext _ | .dtorFree _ => true
  | _ => false

/-- What an access from `p` has read to lead there. -/
def Seen (s : State Θ T A) (p : Pc Θ T A) : Pc Θ T A → Prop
  | .joinRet t | .dtorContext t => (s.task (.unbound t)).state = .finished
  | .dtorFree t => p = .dtorContext t ∧ (s.task (.unbound t)).context ≠ .null
  | _ => True

/-- From `p` a step of the stack can lead to `p'`. -/
structure Leads (s : State Θ T A) (p p' : Pc Θ T A) : Prop where
  calls : p'.calls ⊆ p.calls
  leaving : p'.leaving = none ∨ p'.leaving = p.leaving
  notifying : p'.notifying = none ∨
    ∃ z, p'.notifying = some z ∧ p.waking = some z ∧ z.isThreadBound = true
  ended : p'.ended = false ∨ p'.ended = p.ended ∨ ∃ me, p.stateStore = some (me, .finished)
  seen : Seen s p p'

end Pc

/-- What happens to the flags of the task objects. -/
inductive LifeStep (p p' : Pc Θ T A) (life life' : TaskId Θ T → Life) [DecidableEq Θ]
    [DecidableEq T] : Prop
  | same (h : life' = life)
  | constructed (t : T) (hp : .ctor t ∈ p.calls) (hp' : p' = .user)
      (h : life' = Function.update life (.unbound t) .alive)
  | destroyed (t : T) (hp : p = .dtorFree t) (hp' : p' = .user)
      (h : life' = Function.update life (.unbound t) .destroyed)
  | exited (me : TaskId Θ T) (hp : p = .exitState me) (hp' : p' = .exited)
      (h : life' = Function.update life me .destroyed)

variable [DecidableEq Θ] [DecidableEq T]

/-- The stack `x` has moved to `p'`, by an access of its control point. -/
structure Inner (s s' : State Θ T A) (x : TaskId Θ T) (p' : Pc Θ T A) : Prop where
  pc : s'.pc = Function.update s.pc x p'
  leads : (s.pc x).Leads s p'
  exec : s'.exec = s.exec
  returned : s'.returned = s.returned
  state : ∀ z, (s'.task z).state = (s.task z).state ∨
    (s.pc x).stateStore = some (z, (s'.task z).state)
  context : ∀ z, (s'.task z).context = (s.task z).context ∨
    (s.pc x).contextStore = some (z, (s'.task z).context)
  isFinished : ∀ a, (s'.aw a).isFinished = true → (s.aw a).isFinished = true ∨
    ∃ ret, .release ret a ∈ (s.pc x).calls
  life : LifeStep (s.pc x) p' s.life s'.life

variable {s s' s₁ : State Θ T A} {θ : Θ} {x y z : TaskId Θ T} {p p' : Pc Θ T A} {spurious : Bool}
  {ret : SchedRet Θ T A} {rel : ReleaseRet Θ T} {a : AwId Θ T A}

/-! ## §2. Accesses. -/

namespace Inner

theorem setPc (hpc : s.pc x = p) (h : p.Leads s p') : Inner s (s.setPc x p') x p' := by
  subst hpc
  exact ⟨rfl, h, rfl, rfl, fun _ => .inl rfl, fun _ => .inl rfl, fun _ hf => .inl hf, .same rfl⟩

/-- The fields of one task are written as well. -/
theorem setTask (hpc : s.pc x = p) {f : TaskBase (TaskId Θ T)} (h : p.Leads s p')
    (hs : f.state = (s.task z).state ∨ p.stateStore = some (z, f.state))
    (hc : f.context = (s.task z).context ∨ p.contextStore = some (z, f.context)) :
    Inner s ((s.setTask z f).setPc x p') x p' := by
  subst hpc
  refine ⟨rfl, h, rfl, rfl, fun w => ?_, fun w => ?_, fun _ hf => .inl hf, .same rfl⟩
  · by_cases hw : w = z
    · subst hw
      simpa [State.setTask, State.setPc] using hs
    · simp [State.setTask, State.setPc, hw]
  · by_cases hw : w = z
    · subst hw
      simpa [State.setTask, State.setPc] using hc
    · simp [State.setTask, State.setPc, hw]

/-- A step after writes that show in no field but the flags of Awaitables. -/
theorem after (h : Inner s₁ s' x p') (hpc : s₁.pc = s.pc) (hexec : s₁.exec = s.exec)
    (hret : s₁.returned = s.returned) (hlife : s₁.life = s.life)
    (hs : ∀ z, (s₁.task z).state = (s.task z).state)
    (hc : ∀ z, (s₁.task z).context = (s.task z).context)
    (hf : ∀ a, (s₁.aw a).isFinished = true → (s.aw a).isFinished = true ∨
      ∃ ret, .release ret a ∈ (s.pc x).calls) : Inner s s' x p' := by
  obtain ⟨h1, h2, h3, h4, h5, h6, h7, h8⟩ := h
  rw [hpc] at h1 h2 h5 h6 h7 h8
  refine ⟨h1, ?_, h3.trans hexec, h4.trans hret, fun z => ?_, fun z => ?_, fun a ha => ?_, ?_⟩
  · refine ⟨h2.calls, h2.leaving, h2.notifying, h2.ended, ?_⟩
    have hseen := h2.seen
    cases p' with
    | joinRet t => exact (hs _).symm.trans hseen
    | dtorContext t => exact (hs _).symm.trans hseen
    | dtorFree t => exact ⟨hseen.1, fun hnull => hseen.2 ((hc _).trans hnull)⟩
    | _ => trivial
  · rw [← hs]
    exact h5 z
  · rw [← hc]
    exact h6 z
  · rcases h7 a ha with h | h
    · exact hf a h
    · exact .inr h
  · rwa [hlife] at h8

/-- The flag of a task object changes as well. -/
theorem setLife (h : Inner s s' x p') {l : Life} (hsame : s'.life = s.life)
    (hl : LifeStep (s.pc x) p' s.life (Function.update s.life z l)) :
    Inner s (s'.setLife z l) x p' := by
  obtain ⟨h1, h2, h3, h4, h5, h6, h7, -⟩ := h
  refine ⟨h1, h2, h3, h4, h5, h6, h7, ?_⟩
  show LifeStep _ _ _ (Function.update s'.life z l)
  rwa [hsame]

end Inner

namespace Pc.Leads

omit [DecidableEq Θ] [DecidableEq T]

/-- A step to a point without assertions of its own. -/
theorem of_calls (hc : p'.calls ⊆ p.calls) (hl : p'.leaving = none) (hn : p'.notifying = none)
    (he : p'.ended = false ∨ p'.ended = p.ended) (hseen : Seen s p p') : p.Leads s p' :=
  ⟨hc, .inl hl, .inl hn, he.imp_right .inl, hseen⟩

theorem schedule {me : TaskId Θ T} {pc : SchedPc Θ T} (hc : ret.calls ⊆ p.calls)
    (he : ret.last = false ∨ ret.last = p.ended) : p.Leads s (.schedule ret me pc) :=
  .of_calls hc rfl rfl he trivial

/-- `schedule` or `switch_to` returns. -/
theorem returns (hc : ret.calls ⊆ p.calls) : p.Leads s (returnPc ret) := by
  cases ret with
  | dtor t => exact .of_calls hc rfl rfl (.inl rfl) trivial
  | _ => exact .of_calls (List.nil_subset _) rfl rfl (.inl rfl) trivial

/-- `release` returns. -/
theorem released (hc : rel.calls ⊆ p.calls) : p.Leads s (releaseReturn rel) := by
  cases rel with
  | dtor t => exact .of_calls hc rfl rfl (.inl rfl) trivial
  | finish me => exact .of_calls hc rfl rfl (.inl rfl) trivial
  | _ => exact .of_calls (List.nil_subset _) rfl rfl (.inl rfl) trivial

end Pc.Leads

/-- The loops of `add_waiting_list_to_running` go on or end. -/
theorem inner_nextWaiting (hpc : s.pc x = p) (hc : p.calls = .release rel a :: rel.calls)
    (delayed taskList : Option (TaskId Θ T)) :
    ∃ p', Inner s (nextWaiting s x rel a delayed taskList) x p' := by
  have hsub : Call.release rel a :: rel.calls ⊆ p.calls := by
    rw [hc]
    exact List.Subset.refl _
  cases taskList with
  | some task => exact ⟨_, .setPc hpc (.of_calls hsub rfl rfl (.inl rfl) trivial)⟩
  | none =>
      cases delayed with
      | none =>
          exact ⟨_, .setPc hpc (.released fun c hcall => hsub (List.mem_cons_of_mem _ hcall))⟩
      | some task =>
          exact ⟨_, .setTask hpc (.of_calls hsub rfl rfl (.inl rfl) trivial) (.inl rfl)
            (.inl rfl)⟩

/-- An enqueueing shows in no field. -/
theorem Inner.enqueue {w : TaskId Θ T} (h : Inner (s.enqueue w) s' x p') : Inner s s' x p' := by
  cases w with
  | native θ' => exact h
  | unbound t =>
      exact h.after rfl rfl rfl rfl (fun _ => rfl) (fun _ => rfl) (fun _ hf => .inl hf)

theorem inner_scheduleReturn (hpc : s.pc x = p) (hc : ret.calls ⊆ p.calls) :
    ∃ p', Inner s (scheduleReturn s x ret) x p' := by
  have hleads : p.Leads s (returnPc ret) := .returns hc
  refine ⟨returnPc ret, ?_⟩
  cases ret with
  | ctor t =>
      exact (Inner.setPc hpc hleads).setLife rfl
        (.constructed t (hpc ▸ hc (.head _)) rfl rfl)
  | _ => exact .setPc hpc hleads

theorem inner_scheduleStep {bg : Θ → Bool} {me : TaskId Θ T} {pc : SchedPc Θ T}
    (hpc : s.pc x = .schedule ret me pc) (h : scheduleStep bg s θ x ret me pc = some s') :
    ∃ p', Inner s s' x p' := by
  have hmove : ∀ pc', Inner s (s.setPc x (.schedule ret me pc')) x (.schedule ret me pc') :=
    fun pc' => .setPc hpc (.schedule (List.Subset.refl _) (.inr rfl))
  have hswitch : ∀ new, Inner s (s.setPc x (.switchTo ret new)) x (.switchTo ret new) :=
    fun new => .setPc hpc (.of_calls (List.Subset.refl _) rfl rfl (.inr rfl) trivial)
  cases pc with
  | native =>
      injection h with h
      exact ⟨_, h ▸ hmove _⟩
  | queue => cases h
  | currentState next =>
      cases next with
      | some new =>
          injection h with h
          exact ⟨_, h ▸ hswitch _⟩
      | none =>
          injection h with h
          subst h
          split
          · exact ⟨_, hswitch _⟩
          · exact ⟨_, hmove _⟩
  | running =>
      simp only [scheduleStep] at h
      split at h <;> injection h with h <;> subst h
      · exact inner_scheduleReturn hpc (List.Subset.refl _)
      · exact ⟨_, hmove _⟩
  | waiting =>
      injection h with h
      exact ⟨_, h ▸ hmove _⟩
  | futex =>
      injection h with h
      exact ⟨_, h ▸ hmove _⟩

theorem inner_postJumpStep {me prev : TaskId Θ T} {fctx : Context (TaskId Θ T)} {pc : PostPc}
    (hpc : s.pc x = .postJump ret me prev fctx pc) :
    ∃ p', Inner s (postJumpStep s x ret me prev fctx pc) x p' := by
  cases pc with
  | clearCurrent =>
      exact ⟨_, .setTask hpc ⟨List.Subset.refl _, .inr rfl, .inl rfl, .inl rfl, trivial⟩
        (.inl rfl) (.inr rfl)⟩
  | savePrev =>
      exact ⟨_, .setTask hpc ⟨List.Subset.refl _, .inr rfl, .inl rfl, .inl rfl, trivial⟩
        (.inl rfl) (.inr rfl)⟩
  | prevState =>
      simp only [postJumpStep]
      split
      · exact ⟨_, .setPc hpc (.of_calls (List.Subset.refl _) rfl rfl (.inl rfl) trivial)⟩
      · exact inner_scheduleReturn hpc (List.Subset.refl _)
  | enqueue =>
      have henq : (s.enqueue prev).pc x = .postJump ret me prev fctx .enqueue := by
        cases prev <;> exact hpc
      obtain ⟨p', h⟩ := inner_scheduleReturn (p := .postJump ret me prev fctx .enqueue) henq
        (List.Subset.refl _)
      exact ⟨p', h.enqueue⟩

variable [DecidableEq A]

/-- The step of `insert_current_task_in_waitlist` of the task on the stack. -/
theorem inner_insertionStep {bg : Θ → Bool} {me : TaskId Θ T} {pc : InsertPc (TaskId Θ T)}
    (hpc : s.pc x = .insert a me pc) :
    ∃ p', Inner s (insertionStep bg s θ x spurious a me pc) x p' := by
  have hleads : ∀ pc pc', (Pc.insert a me pc).Leads s (.insert a me pc') := fun _ _ =>
    .of_calls (List.Subset.refl _) rfl rfl (.inl rfl) trivial
  have hret : ∀ pc b, (Pc.insert a me pc).Leads s (.waitRet a b) := fun _ _ =>
    .of_calls (List.nil_subset _) rfl rfl (.inl rfl) trivial
  -- all but the successful compare-exchange keep the word
  have hword : s.setAw a (s.aw a) = s := by simp [State.setAw]
  cases pc with
  | load =>
      cases hfin : (s.aw a).isFinished with
      | true =>
          simp only [insertionStep, insertStep, hword, hfin, if_true]
          exact ⟨_, .setTask hpc (hret _ _) (.inl rfl) (.inl rfl)⟩
      | false =>
          simp only [insertionStep, insertStep, hword, hfin, Bool.false_eq_true, if_false]
          exact ⟨_, .setTask hpc (hleads _ _) (.inl rfl) (.inl rfl)⟩
  | setState aw =>
      simp only [insertionStep, insertStep, hword]
      exact ⟨_, .setTask hpc (hleads _ _) (.inr rfl) (.inl rfl)⟩
  | setContext aw =>
      simp only [insertionStep, insertStep, hword]
      exact ⟨_, .setTask hpc (hleads _ _) (.inl rfl) (.inr rfl)⟩
  | undoState =>
      simp only [insertionStep, insertStep, hword]
      exact ⟨_, .setTask hpc (hleads _ _) (.inr rfl) (.inl rfl)⟩
  | undoContext =>
      simp only [insertionStep, insertStep, hword]
      exact ⟨_, .setTask hpc (hret _ _) (.inl rfl) (.inr rfl)⟩
  | cas aw =>
      -- the word is published by this access: the task leaves through `schedule`
      by_cases heq : s.aw a = aw ∧ spurious = false
      · simp only [insertionStep, insertStep, if_pos heq]
        unfold schedule
        refine ⟨_, Inner.after (.setPc (p := .insert a me (.cas aw)) hpc
          (.schedule (List.nil_subset _) (.inl rfl))) rfl rfl rfl rfl
          (fun z => ?_) (fun z => ?_) (fun b hb => ?_)⟩
        · by_cases hz : z = me <;> simp [State.setTask, State.setAw, hz]
        · by_cases hz : z = me <;> simp [State.setTask, State.setAw, hz]
        · by_cases hab : b = a
          · subst hab
            simp [State.setTask, State.setAw] at hb
          · exact .inl (by simpa [State.setTask, State.setAw, hab] using hb)
      · cases hfin : (s.aw a).isFinished with
        | true =>
            simp only [insertionStep, insertStep, hword, if_neg heq, hfin, if_true]
            exact ⟨_, .setTask hpc (hleads _ _) (.inl rfl) (.inl rfl)⟩
        | false =>
            simp only [insertionStep, insertStep, hword, if_neg heq, hfin, Bool.false_eq_true,
              if_false]
            exact ⟨_, .setTask hpc (hleads _ _) (.inl rfl) (.inl rfl)⟩

theorem inner_releasingStep {pc : ReleasePc (TaskId Θ T)} (hpc : s.pc x = .release rel a pc) :
    ∃ p', Inner s (releasingStep s x spurious rel a pc) x p' := by
  have hmove : ∀ pc', (Pc.release rel a pc).Leads s (.release rel a pc') := fun _ =>
    .of_calls (List.Subset.refl _) rfl rfl (.inl rfl) trivial
  have hret : (Pc.release rel a pc).Leads s (releaseReturn rel) :=
    .released (List.subset_cons_self _ _)
  have hword : s.setAw a (s.aw a) = s := by simp [State.setAw]
  cases pc with
  | load =>
      cases hfin : (s.aw a).isFinished with
      | true =>
          simp only [releasingStep, releaseStep, hword, hfin, if_true]
          exact ⟨_, .setPc hpc hret⟩
      | false =>
          simp only [releasingStep, releaseStep, hword, hfin, Bool.false_eq_true, if_false]
          exact ⟨_, .setPc hpc (hmove _)⟩
  | cas aw =>
      -- the one access that marks a word finished and takes its list
      by_cases heq : s.aw a = aw ∧ spurious = false
      · simp only [releasingStep, releaseStep, if_pos heq]
        have hpc' : (s.setAw a { head := none, isFinished := true }).pc x =
            .release rel a (.cas aw) := hpc
        obtain ⟨p', h⟩ := inner_nextWaiting hpc' rfl none aw.head
        refine ⟨p', h.after rfl rfl rfl rfl (fun _ => rfl) (fun _ => rfl) (fun b hb => ?_)⟩
        by_cases hab : b = a
        · subst hab
          exact .inr ⟨rel, by rw [hpc]; exact .head _⟩
        · exact .inl (by simpa [State.setAw, hab] using hb)
      · cases hfin : (s.aw a).isFinished with
        | true =>
            simp only [releasingStep, releaseStep, hword, if_neg heq, hfin, if_true]
            exact ⟨_, .setPc hpc hret⟩
        | false =>
            simp only [releasingStep, releaseStep, hword, if_neg heq, hfin, Bool.false_eq_true,
              if_false]
            exact ⟨_, .setPc hpc (hmove _)⟩

/-- **An access of a control point**, the switch apart. -/
theorem goStep_cases {bg : Θ → Bool} (h : goStep bg s θ x spurious (s.pc x) = some s') :
    (∃ p', Inner s s' x p') ∨
      ∃ ret newTask, s.pc x = .switchTo ret newTask ∧ switchStep s θ x ret newTask = some s' := by
  cases hpc : s.pc x with
  -- points without an access of their own
  | unborn => rw [hpc] at h; cases h
  | start => rw [hpc] at h; cases h
  | suspended => rw [hpc] at h; cases h
  | user => rw [hpc] at h; cases h
  | unreachable => rw [hpc] at h; cases h
  | exited => rw [hpc] at h; cases h
  | switchTo ret new =>
      rw [hpc] at h
      exact .inr ⟨ret, new, rfl, h⟩
  | insert a me pc =>
      rw [hpc] at h
      injection h with h
      exact .inl (h ▸ inner_insertionStep hpc)
  | waitRet a b =>
      rw [hpc] at h
      injection h with h
      subst h
      exact .inl ⟨_, .setPc hpc (.of_calls (List.nil_subset _) rfl rfl (.inl rfl) trivial)⟩
  | joinRet t =>
      rw [hpc] at h
      injection h with h
      subst h
      exact .inl ⟨_, .setPc hpc (.of_calls (List.nil_subset _) rfl rfl (.inl rfl) trivial)⟩
  | joinState t =>
      rw [hpc] at h
      injection h with h
      subst h
      left
      split
      next hs =>
        exact ⟨_, .setPc hpc (.of_calls (List.nil_subset _) rfl rfl (.inl rfl) hs)⟩
      next => exact ⟨_, .setPc hpc (.of_calls (List.Subset.refl _) rfl rfl (.inl rfl) trivial)⟩
  | schedule ret me pc =>
      rw [hpc] at h
      exact .inl (inner_scheduleStep hpc h)
  | postJump ret me prev fctx pc =>
      rw [hpc] at h
      injection h with h
      exact .inl (h ▸ inner_postJumpStep hpc)
  | release rel a pc =>
      rw [hpc] at h
      injection h with h
      exact .inl (h ▸ inner_releasingStep hpc)
  -- the passing on of a taken list: a waiter becomes Running, and is delayed
  -- through `next` if its context is not saved yet
  | addState rel a z delayed =>
      rw [hpc] at h
      injection h with h
      subst h
      refine .inl ⟨_, .setTask hpc ?_ (.inr rfl) (.inl rfl)⟩
      split
      next hb =>
        exact ⟨List.Subset.refl _, .inl rfl, .inr ⟨z, rfl, rfl, hb⟩, .inl rfl, trivial⟩
      next => exact .of_calls (List.Subset.refl _) rfl rfl (.inl rfl) trivial
  | addNotify rel a taskList delayed z =>
      rw [hpc] at h
      injection h with h
      exact .inl (h ▸ inner_nextWaiting hpc rfl delayed taskList)
  | addContext rel a taskList delayed z =>
      rw [hpc] at h
      injection h with h
      subst h
      left
      unfold addContextStep
      split
      · have hpc' : (s.setTask z { s.task z with next := delayed }).pc x =
            .addContext rel a taskList delayed z := hpc
        obtain ⟨p', h⟩ := inner_nextWaiting hpc' rfl (some z) taskList
        refine ⟨p', h.after rfl rfl rfl rfl (fun w => ?_) (fun w => ?_) (fun _ hf => .inl hf)⟩
        · by_cases hw : w = z <;> simp [State.setTask, hw]
        · by_cases hw : w = z <;> simp [State.setTask, hw]
      · exact ⟨_, .setPc hpc (.of_calls (List.Subset.refl _) rfl rfl (.inl rfl) trivial)⟩
  | addEnqueue rel a taskList delayed z =>
      rw [hpc] at h
      injection h with h
      subst h
      have hpc' : (s.enqueue z).pc x = .addEnqueue rel a taskList delayed z := by
        cases z <;> exact hpc
      obtain ⟨p', h⟩ := inner_nextWaiting hpc' rfl delayed taskList
      exact .inl ⟨p', h.enqueue⟩
  | delayedContext rel a delayed z =>
      rw [hpc] at h
      injection h with h
      subst h
      left
      unfold delayedContextStep
      split
      · have hstay : s = s.setPc x (.delayedContext rel a delayed z) := by
          simp [State.setPc, ← hpc]
        exact ⟨_, by
          conv => arg 2; rw [hstay]
          exact .setPc hpc (.of_calls (List.Subset.refl _) rfl rfl (.inl rfl) trivial)⟩
      · exact ⟨_, .setPc hpc (.of_calls (List.Subset.refl _) rfl rfl (.inl rfl) trivial)⟩
  | delayedEnqueue rel a delayed z =>
      rw [hpc] at h
      injection h with h
      subst h
      have hpc' : (s.enqueue z).pc x = .delayedEnqueue rel a delayed z := by
        cases z <;> exact hpc
      obtain ⟨p', h⟩ := inner_nextWaiting hpc' rfl delayed none
      exact .inl ⟨p', h.enqueue⟩
  | finishState me =>
      rw [hpc] at h
      injection h with h
      subst h
      exact .inl ⟨_, .setTask hpc ⟨List.Subset.refl _, .inl rfl, .inl rfl,
        .inr (.inr ⟨me, rfl⟩), trivial⟩ (.inr rfl) (.inl rfl)⟩
  -- the native task ends with its thread: the object is destroyed
  | exitState me =>
      rw [hpc] at h
      injection h with h
      subst h
      have hmove : Inner s ((s.setTask me { s.task me with state := .finished }).setPc x .exited)
          x .exited :=
        .setTask hpc ⟨List.nil_subset _, .inl rfl, .inl rfl, .inr (.inr ⟨me, rfl⟩), trivial⟩
          (.inr rfl) (.inl rfl)
      exact .inl ⟨_, hmove.setLife (z := me) (l := .destroyed) rfl (.exited me hpc rfl rfl)⟩
  -- `~Task` yields until the task is finished and its context is saved
  | dtorState t =>
      rw [hpc] at h
      simp only [goStep] at h
      split at h <;> injection h with h <;> subst h
      next hs =>
        exact .inl ⟨_, .setPc hpc (.of_calls (List.Subset.refl _) rfl rfl (.inl rfl) hs)⟩
      next => exact .inl ⟨_, .setPc hpc (.schedule (List.Subset.refl _) (.inl rfl))⟩
  | dtorContext t =>
      rw [hpc] at h
      simp only [goStep] at h
      split at h <;> injection h with h <;> subst h
      next => exact .inl ⟨_, .setPc hpc (.schedule (List.Subset.refl _) (.inl rfl))⟩
      next hc =>
        exact .inl ⟨_, .setPc hpc (.of_calls (List.Subset.refl _) rfl rfl (.inl rfl) ⟨rfl, hc⟩)⟩
  | dtorFree t =>
      rw [hpc] at h
      injection h with h
      subst h
      have hmove : Inner s (s.setPc x .user) x .user :=
        .setPc hpc (.of_calls (List.nil_subset _) rfl rfl (.inl rfl) trivial)
      exact .inl ⟨_, hmove.setLife (z := .unbound t) (l := .destroyed) rfl
        (.destroyed t hpc rfl rfl)⟩

omit [DecidableEq A] in
/-- What the queue returned is written to its link only. -/
theorem inner_pickStep {me : TaskId Θ T} {t : Option T} (hpc : s.pc x = .schedule ret me .queue)
    (h : pickStep s x ret me t = some s') : ∃ p', Inner s s' x p' := by
  cases t with
  | none =>
      injection h with h
      subst h
      exact ⟨_, .setPc hpc (.schedule (List.Subset.refl _) (.inr rfl))⟩
  | some t =>
      simp only [pickStep] at h
      split at h
      next =>
        injection h with h
        subst h
        have hpc' : (s.dequeue t).pc x = .schedule ret me .queue := hpc
        have hfields : ∀ z, ((s.dequeue t).task z).state = (s.task z).state ∧
            ((s.dequeue t).task z).context = (s.task z).context := by
          intro z
          by_cases hz : z = .unbound t
          · subst hz
            simp [State.dequeue]
          · simp [State.dequeue, hz]
        refine ⟨_, Inner.after (.setPc hpc' ?_) rfl rfl rfl rfl (fun z => (hfields z).1)
          (fun z => (hfields z).2) fun _ hf => .inl hf⟩
        split
        · exact .of_calls (List.Subset.refl _) rfl rfl (.inr rfl) trivial
        · exact .schedule (List.Subset.refl _) (.inr rfl)
      next => cases h

end Scheduler

end Alterstack
