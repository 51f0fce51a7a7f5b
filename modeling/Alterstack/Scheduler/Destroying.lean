/-
  Alterstack.Scheduler.Destroying — the Awaitable inside a destroyed task.

  `~Task` and `~BoundTask` release `m_awaitable` before anything else, and its
  own destructor runs last: `~Awaitable` waits if it finds a task in the list
  of an Awaitable that is not finished.  It never does.  Whatever the other
  threads do, an Awaitable that has been released stays finished with an empty
  list, and the destructors come to their later points only behind the release.

  The runs are arbitrary: nothing is assumed about the order of the steps.

  Main results:
    * `wordStep_goStep` — no access opens a finished Awaitable;
    * `fits_goStep` — a stack comes behind a release by a release only;
    * `closed_for_good` — the `m_awaitable` of a task that is being destroyed,
      or has been, is finished and empty for ever.
-/
import Alterstack.Scheduler.Lifetime
import Alterstack.Scheduler.Places
import Alterstack.Scheduler.Sleepless

namespace Alterstack

/-- `Awaitable::~Awaitable`: does it call `wait` after its read of `m_data`. -/
def Awaitable.dtorWaits {N : Type*} (awData : AwaitableData N) : Bool :=
  if awData.isFinished ∨ awData.head = none then false else true

namespace Scheduler

open Lib (Machine)
open Awaitable (InsertPc ReleasePc insertStep releaseStep dtorWaits)
open OsThread

variable {Θ T A : Type*}

/-! ## §1. Points behind a release. -/

/-- The Awaitable whose release lies behind the loop of `~Task`. -/
def SchedRet.closed : SchedRet Θ T A → Option (AwId Θ T A)
  | .dtor t => some (.own (.unbound t))
  | _ => none

namespace Pc

/-- The Awaitable whose release lies behind the point, in the same call or in
the destructor or the `_run_wrapper` around it. -/
def closed : Pc Θ T A → Option (AwId Θ T A)
  | .schedule ret _ _ | .switchTo ret _ | .suspended ret _ | .postJump ret _ _ _ _ => ret.closed
  | .addState _ a _ _ | .addNotify _ a _ _ _ | .addContext _ a _ _ _ | .addEnqueue _ a _ _ _
  | .delayedContext _ a _ _ | .delayedEnqueue _ a _ _ => some a
  | .finishState current => some (.own current)
  | .exitState this => some (.own this)
  | .dtorState t | .dtorContext t | .dtorFree t => some (.own (.unbound t))
  | _ => none

/-- The word that an insertion expects in the Awaitable. -/
def expected : Pc Θ T A → Option (AwaitableData (TaskId Θ T))
  | .insert _ _ (.setState awData) | .insert _ _ (.setContext awData) | .insert _ _ (.cas awData) =>
      some awData
  | _ => none

/-- What the locals of the point say about the words of the Awaitables. -/
structure Fits (aw : AwId Θ T A → AwaitableData (TaskId Θ T)) (p : Pc Θ T A) : Prop where
  expects : ∀ d, p.expected = some d → d.isFinished = false
  behind : ∀ a, p.closed = some a → (aw a).isFinished = true

variable {aw aw' : AwId Θ T A → AwaitableData (TaskId Θ T)} {p : Pc Θ T A} {a : AwId Θ T A}

theorem Fits.mono (h : p.Fits aw)
    (hmono : ∀ a, (aw a).isFinished = true → (aw' a).isFinished = true) : p.Fits aw' :=
  ⟨h.expects, fun a ha => hmono a (h.behind a ha)⟩

/-- Points outside an insertion. -/
theorem Fits.of_closed (hexp : p.expected = none)
    (h : ∀ a, p.closed = some a → (aw a).isFinished = true) : p.Fits aw := by
  refine ⟨fun d hd => ?_, h⟩
  rw [hexp] at hd
  cases hd

/-- Points that say nothing. -/
theorem Fits.of_none (hexp : p.expected = none) (hcl : p.closed = none) : p.Fits aw := by
  refine .of_closed hexp fun a ha => ?_
  rw [hcl] at ha
  cases ha

/-- A stack that is jumped to goes on where it was suspended. -/
theorem Fits.resumed (h : p.Fits aw) (newTask prevTask : TaskId Θ T)
    (fctx : Context (TaskId Θ T)) : (resumed newTask prevTask fctx p).Fits aw := by
  cases p with
  | suspended ret oldTask => exact ⟨h.expects, h.behind⟩
  | start => exact .of_none rfl rfl
  | _ => exact h

theorem fits_returnPc {ret : SchedRet Θ T A}
    (h : ∀ a, ret.closed = some a → (aw a).isFinished = true) : (returnPc ret).Fits aw := by
  cases ret with
  | dtor t => exact .of_closed rfl h
  | _ => exact .of_none rfl rfl

/-- `release` has returned. -/
theorem fits_releaseReturn {rel : ReleaseRet Θ T} (hrel : rel.Releases a)
    (ha : (aw a).isFinished = true) : (releaseReturn rel).Fits aw := by
  have hown : ∀ b, a = b → ∀ c, some b = some c → (aw c).isFinished = true := by
    rintro b rfl c hc
    exact Option.some.inj hc ▸ ha
  cases rel with
  | user => exact .of_none rfl rfl
  | dtor t => exact .of_closed rfl (hown _ hrel)
  | finish current => exact .of_closed rfl (hown _ hrel)
  | exit this => exact .of_closed rfl (hown _ hrel)

end Pc

/-! ## §2. The words. -/

/-- What a step makes of a word: a finished one stays as it is. -/
inductive WordStep (aw aw' : AwaitableData (TaskId Θ T)) : Prop
  | same (h : aw' = aw)
  | finished (h : aw' = { head := none, isFinished := true })
  | opened (h : aw.isFinished = false) (h' : aw'.isFinished = false)

theorem WordStep.isFinished {aw aw' : AwaitableData (TaskId Θ T)} (h : WordStep aw aw')
    (ha : aw.isFinished = true) : aw'.isFinished = true := by
  cases h with
  | same h => rwa [h]
  | finished h => rw [h]
  | opened h h' =>
      rw [h] at ha
      cases ha

theorem WordStep.empty {aw aw' : AwaitableData (TaskId Θ T)} (h : WordStep aw aw')
    (hempty : aw.isFinished = true → aw.head = none) (ha : aw'.isFinished = true) :
    aw'.head = none := by
  cases h with
  | same h =>
      rw [h] at ha ⊢
      exact hempty ha
  | finished h => rw [h]
  | opened h h' =>
      rw [h'] at ha
      cases ha

variable [DecidableEq Θ] [DecidableEq T]

theorem wordStep_releaseStep (spurious : Bool) (data : AwaitableData (TaskId Θ T))
    (pc : ReleasePc (TaskId Θ T)) : WordStep data (releaseStep spurious data pc).1 := by
  cases pc with
  | load => exact .same rfl
  | cas awData =>
      simp only [releaseStep]
      split
      · exact .finished rfl
      · split <;> exact .same rfl

theorem wordStep_insertStep (me : TaskId Θ T) (spurious : Bool)
    (data : AwaitableData (TaskId Θ T)) (task : TaskBase (TaskId Θ T))
    {pc : InsertPc (TaskId Θ T)} (h : ∀ d, pc = .cas d → d.isFinished = false) :
    WordStep data (insertStep me spurious data task pc).1 := by
  cases pc with
  | cas awData =>
      simp only [insertStep]
      split
      next heq => exact .opened (heq.1 ▸ h awData rfl) rfl
      next => split <;> exact .same rfl
  | _ => exact .same rfl

variable [DecidableEq A] {bg : Θ → Bool} {s s' : State Θ T A} {l : Label Θ T A} {θ : Θ}
  {x y : TaskId Θ T} {a : AwId Θ T A} {rel : ReleaseRet Θ T} {spurious : Bool} {p : Pc Θ T A}

theorem aw_insertionStep (me : TaskId Θ T) (pc : InsertPc (TaskId Θ T)) :
    (insertionStep bg s θ x spurious a me pc).aw = Function.update s.aw a
      (insertStep me spurious (s.aw a) (s.task me) pc).1 := by
  simp only [insertionStep]
  split <;> rfl

theorem aw_releasingStep (pc : ReleasePc (TaskId Θ T)) :
    (releasingStep s x spurious rel a pc).aw =
      Function.update s.aw a (releaseStep spurious (s.aw a) pc).1 := by
  simp only [releasingStep]
  split
  · rfl
  · rfl
  · exact aw_nextWaiting none _

/-- **No access opens a finished Awaitable**, and none finishes one with tasks in
its list. -/
theorem wordStep_goStep (hfits : p.Fits s.aw) (h : goStep bg s θ x spurious p = some s')
    (b : AwId Θ T A) : WordStep (s.aw b) (s'.aw b) := by
  rcases aw_goStep h with haw | ⟨a, me, pc, rfl⟩ | ⟨rel, a, pc, rfl⟩
  · exact .same (by rw [haw])
  · injection h with h
    rw [← h, aw_insertionStep]
    by_cases hb : b = a
    · subst hb
      rw [Function.update_self]
      refine wordStep_insertStep me spurious _ _ fun d hd => ?_
      subst hd
      exact hfits.expects d rfl
    · exact .same (Function.update_of_ne hb _ _)
  · injection h with h
    rw [← h, aw_releasingStep]
    by_cases hb : b = a
    · subst hb
      rw [Function.update_self]
      exact wordStep_releaseStep spurious _ pc
    · exact .same (Function.update_of_ne hb _ _)

/-! ## §3. The points. -/

omit [DecidableEq A] in
theorem fits_scheduleReturn {aw : AwId Θ T A → AwaitableData (TaskId Θ T)}
    {ret : SchedRet Θ T A} (h : ∀ b, ret.closed = some b → (aw b).isFinished = true) :
    ((scheduleReturn s x ret).pc x).Fits aw := by
  have hpc : (scheduleReturn s x ret).pc x = returnPc ret := by
    cases ret <;> exact setPc_pc_self
  rw [hpc]
  exact Pc.fits_returnPc h

omit [DecidableEq A] in
theorem fits_nextWaiting {aw : AwId Θ T A → AwaitableData (TaskId Θ T)} (hrel : rel.Releases a)
    (ha : (aw a).isFinished = true) (delayed taskList : Option (TaskId Θ T)) :
    ((nextWaiting s x rel a delayed taskList).pc x).Fits aw := by
  have hown : ∀ b, some a = some b → (aw b).isFinished = true := by
    intro b hb
    exact Option.some.inj hb ▸ ha
  cases taskList with
  | some task =>
      simp only [nextWaiting, setPc_pc_self]
      exact .of_closed rfl hown
  | none =>
      cases delayed with
      | some task =>
          simp only [nextWaiting, setPc_pc_self]
          exact .of_closed rfl hown
      | none =>
          simp only [nextWaiting, setPc_pc_self]
          exact Pc.fits_releaseReturn hrel ha

/-- An insertion goes on with a word that is not finished, or ends. -/
theorem fits_insertionStep {aw : AwId Θ T A → AwaitableData (TaskId Θ T)} {me : TaskId Θ T}
    {pc : InsertPc (TaskId Θ T)} (hfits : (Pc.insert a me pc).Fits s.aw) :
    ((insertionStep bg s θ x spurious a me pc).pc x).Fits aw := by
  have hgo : ∀ pc' : InsertPc (TaskId Θ T),
      (∀ d, (Pc.insert a me pc' : Pc Θ T A).expected = some d → d.isFinished = false) →
        (Pc.insert a me pc').Fits aw := fun pc' hd => ⟨hd, fun b hb => by cases hb⟩
  cases pc with
  | load =>
      simp only [insertionStep, insertStep]
      cases hfin : (s.aw a).isFinished with
      | true =>
          simp only [if_true, setPc_pc_self]
          exact .of_none rfl rfl
      | false =>
          simp only [Bool.false_eq_true, if_false, setPc_pc_self]
          refine hgo _ fun d hd => ?_
          exact Option.some.inj hd ▸ hfin
  | setState d =>
      simp only [insertionStep, insertStep, setPc_pc_self]
      exact hgo _ hfits.expects
  | setContext d =>
      simp only [insertionStep, insertStep, setPc_pc_self]
      exact hgo _ hfits.expects
  | cas d =>
      simp only [insertionStep, insertStep]
      by_cases heq : s.aw a = d ∧ spurious = false
      · simp only [if_pos heq, schedule, setPc_pc_self]
        exact .of_none rfl rfl
      · simp only [if_neg heq]
        cases hfin : (s.aw a).isFinished with
        | true =>
            simp only [if_true, setPc_pc_self]
            exact .of_none rfl rfl
        | false =>
            simp only [Bool.false_eq_true, if_false, setPc_pc_self]
            refine hgo _ fun d' hd => ?_
            exact Option.some.inj hd ▸ hfin
  | undoState =>
      simp only [insertionStep, insertStep, setPc_pc_self]
      exact .of_none rfl rfl
  | undoContext =>
      simp only [insertionStep, insertStep, setPc_pc_self]
      exact .of_none rfl rfl

/-- A release goes on, or it has found or made the Awaitable finished. -/
theorem fits_releasingStep (hrel : rel.Releases a) (pc : ReleasePc (TaskId Θ T)) :
    ((releasingStep s x spurious rel a pc).pc x).Fits (releasingStep s x spurious rel a pc).aw := by
  rw [aw_releasingStep]
  cases pc with
  | load =>
      simp only [releasingStep, releaseStep]
      cases hfin : (s.aw a).isFinished with
      | true =>
          simp only [if_true, setPc_pc_self]
          exact Pc.fits_releaseReturn hrel (by rw [Function.update_self]; exact hfin)
      | false =>
          simp only [Bool.false_eq_true, if_false, setPc_pc_self]
          exact .of_none rfl rfl
  | cas d =>
      simp only [releasingStep, releaseStep]
      by_cases heq : s.aw a = d ∧ spurious = false
      · simp only [if_pos heq]
        exact fits_nextWaiting hrel (by rw [Function.update_self]) none _
      · simp only [if_neg heq]
        cases hfin : (s.aw a).isFinished with
        | true =>
            simp only [if_true, setPc_pc_self]
            exact Pc.fits_releaseReturn hrel (by rw [Function.update_self]; exact hfin)
        | false =>
            simp only [Bool.false_eq_true, if_false, setPc_pc_self]
            exact .of_none rfl rfl

omit [DecidableEq A] in
/-- `do_schedule` stays in its call, goes on to `switch_to` or returns. -/
theorem fits_scheduleStep {aw : AwId Θ T A → AwaitableData (TaskId Θ T)} {ret : SchedRet Θ T A}
    {me : TaskId Θ T} {pc : SchedPc Θ T}
    (hret : ∀ b, ret.closed = some b → (aw b).isFinished = true)
    (h : scheduleStep bg s θ x ret me pc = some s') : (s'.pc x).Fits aw := by
  cases pc with
  | queue => cases h
  | currentState nextTask =>
      cases nextTask with
      | some task =>
          injection h with h
          rw [← h, setPc_pc_self]
          exact .of_closed rfl hret
      | none =>
          injection h with h
          rw [← h, setPc_pc_self]
          split <;> exact .of_closed rfl hret
  | running =>
      simp only [scheduleStep] at h
      split at h <;> injection h with h <;> subst h
      · exact fits_scheduleReturn hret
      · rw [setPc_pc_self]
        exact .of_closed rfl hret
  | native =>
      injection h with h
      rw [← h, setPc_pc_self]
      exact .of_closed rfl hret
  | waiting =>
      injection h with h
      rw [← h, setPc_pc_self]
      exact .of_closed rfl hret
  | futex =>
      injection h with h
      rw [← h, setPc_pc_self]
      exact .of_closed rfl hret

omit [DecidableEq A] in
theorem fits_postJumpStep {aw : AwId Θ T A → AwaitableData (TaskId Θ T)} {ret : SchedRet Θ T A}
    (hret : ∀ b, ret.closed = some b → (aw b).isFinished = true) (me prev : TaskId Θ T)
    (fctx : Context (TaskId Θ T)) (pc : PostPc) :
    ((postJumpStep s x ret me prev fctx pc).pc x).Fits aw := by
  cases pc with
  | clearCurrent =>
      simp only [postJumpStep, setPc_pc_self]
      exact .of_closed rfl hret
  | savePrev =>
      simp only [postJumpStep, setPc_pc_self]
      exact .of_closed rfl hret
  | prevState =>
      simp only [postJumpStep]
      split
      · rw [setPc_pc_self]
        exact .of_closed rfl hret
      · exact fits_scheduleReturn hret
  | enqueue => exact fits_scheduleReturn hret

omit [DecidableEq A] in
theorem fits_addContextStep {aw : AwId Θ T A → AwaitableData (TaskId Θ T)} (hrel : rel.Releases a)
    (ha : (aw a).isFinished = true) (taskList delayed : Option (TaskId Θ T)) (z : TaskId Θ T) :
    ((addContextStep s x rel a taskList delayed z).pc x).Fits aw := by
  unfold addContextStep
  split
  · exact fits_nextWaiting hrel ha (some z) taskList
  · rw [setPc_pc_self]
    refine .of_closed rfl fun b hb => ?_
    exact Option.some.inj hb ▸ ha

/-- **A stack comes behind a release by a release only.** -/
theorem fits_goStep (hpc : s.pc x = p) (hfits : p.Fits s.aw)
    (hrel : ∀ rel a, .release rel a ∈ p.calls → rel.Releases a)
    (hjump : ∀ ret new, p ≠ .switchTo ret new)
    (h : goStep bg s θ x spurious p = some s') : (s'.pc x).Fits s'.aw := by
  have hbehind : ∀ b, p.closed = some b → (s'.aw b).isFinished = true := by
    intro b hb
    exact (wordStep_goStep hfits h b).isFinished (hfits.behind b hb)
  cases p with
  | unborn | start | suspended | user | unreachable | exited => cases h
  | insert a me pc =>
      injection h with h
      subst h
      exact fits_insertionStep hfits
  | release rel a pc =>
      injection h with h
      subst h
      exact fits_releasingStep (hrel rel a (.head _)) pc
  | schedule ret me pc => exact fits_scheduleStep hbehind h
  | switchTo ret new => exact absurd rfl (hjump ret new)
  | postJump ret me prev fctx pc =>
      injection h with h
      subst h
      exact fits_postJumpStep hbehind me prev fctx pc
  | waitRet a inserted =>
      injection h with h
      rw [← h, setPc_pc_self]
      exact .of_none rfl rfl
  | joinRet t =>
      injection h with h
      rw [← h, setPc_pc_self]
      exact .of_none rfl rfl
  | joinState t =>
      injection h with h
      rw [← h, setPc_pc_self]
      split <;> exact .of_none rfl rfl
  -- the loops of `add_waiting_list_to_running`
  | addState rel a task delayed =>
      injection h with h
      subst h
      simp only [addStateStep, setPc_pc_self]
      split <;> exact .of_closed rfl hbehind
  | addNotify rel a taskList delayed task =>
      injection h with h
      subst h
      exact fits_nextWaiting (hrel rel a (.head _)) (hbehind a rfl) delayed taskList
  | addContext rel a taskList delayed task =>
      injection h with h
      subst h
      exact fits_addContextStep (hrel rel a (.head _)) (hbehind a rfl) taskList delayed task
  | addEnqueue rel a taskList delayed task =>
      injection h with h
      subst h
      exact fits_nextWaiting (hrel rel a (.head _)) (hbehind a rfl) delayed taskList
  | delayedContext rel a delayed task =>
      injection h with h
      subst h
      unfold delayedContextStep
      split
      · rw [hpc]
        exact hfits
      · rw [setPc_pc_self]
        exact .of_closed rfl hfits.behind
  | delayedEnqueue rel a delayed task =>
      injection h with h
      subst h
      exact fits_nextWaiting (hrel rel a (.head _)) (hbehind a rfl) delayed none
  | finishState current =>
      injection h with h
      rw [← h, setPc_pc_self]
      exact .of_none rfl rfl
  | exitState this =>
      injection h with h
      rw [← h, setPc_pc_self]
      exact .of_none rfl rfl
  | dtorState t =>
      simp only [goStep] at h
      split at h <;> injection h with h <;> subst h
      · rw [setPc_pc_self]
        exact .of_closed rfl hbehind
      · rw [schedule, setPc_pc_self]
        exact .of_closed rfl hbehind
  | dtorContext t =>
      simp only [goStep] at h
      split at h <;> injection h with h <;> subst h
      · rw [schedule, setPc_pc_self]
        exact .of_closed rfl hbehind
      · rw [setPc_pc_self]
        exact .of_closed rfl hbehind
  | dtorFree t =>
      injection h with h
      rw [← h, setPc_pc_self]
      exact .of_none rfl rfl

omit [DecidableEq A] in
/-- The look into the running queue. -/
theorem fits_pickStep {ret : SchedRet Θ T A} {me : TaskId Θ T} {t : Option T}
    (hret : ∀ b, ret.closed = some b → (s.aw b).isFinished = true)
    (h : pickStep s x ret me t = some s') : s'.aw = s.aw ∧ (s'.pc x).Fits s.aw := by
  cases t with
  | none =>
      injection h with h
      subst h
      rw [setPc_pc_self]
      exact ⟨rfl, .of_closed rfl hret⟩
  | some t =>
      simp only [pickStep] at h
      split at h
      · injection h with h
        subst h
        rw [setPc_pc_self]
        refine ⟨rfl, ?_⟩
        split <;> exact .of_closed rfl hret
      · cases h

omit [DecidableEq A] in
/-- An action leads to a point that says nothing. -/
theorem fits_actionStep {aw : AwId Θ T A → AwaitableData (TaskId Θ T)} {action : Action T A}
    (h : actionStep bg s θ x action = some s') : (s'.pc x).Fits aw := by
  cases action with
  | yield =>
      injection h with h
      rw [← h, schedule, setPc_pc_self]
      exact .of_none rfl rfl
  | finish =>
      cases x with
      | native θ' => cases h
      | unbound t =>
          injection h with h
          rw [← h, setPc_pc_self]
          exact .of_none rfl rfl
  | exit =>
      cases x with
      | native θ' =>
          injection h with h
          rw [← h, setPc_pc_self]
          exact .of_none rfl rfl
      | unbound t => cases h
  | _ =>
      simp only [actionStep] at h
      split at h
      · cases h
      · injection h with h
        rw [← h, setPc_pc_self]
        exact .of_none rfl rfl

/-! ## §4. All runs. -/

/-- Releases are made where they belong, the points fit the words, a finished
word is empty, and that of a destroyed task is finished. -/
structure Closing (s : State Θ T A) : Prop where
  releases : ∀ y rel a, .release rel a ∈ (s.pc y).calls → rel.Releases a
  fits : ∀ y, (s.pc y).Fits s.aw
  empty : ∀ a, (s.aw a).isFinished = true → (s.aw a).head = none
  destroyed : ∀ z, s.life z = .destroyed → (s.aw (.own z)).isFinished = true

omit [DecidableEq Θ] [DecidableEq T] [DecidableEq A] in
theorem closing_init : Closing (initial : State Θ T A) where
  releases := by rintro (_ | _) rel a h <;> cases h
  fits := by rintro (_ | _) <;> exact .of_none rfl rfl
  empty := fun _ h => by cases h
  destroyed := by rintro (_ | _) h <;> cases h

/-- A switch suspends one stack and resumes another. -/
theorem fits_switchStep {ret : SchedRet Θ T A} {new : TaskId Θ T}
    (hfits : ∀ y, (s.pc y).Fits s.aw) (hpc : s.pc x = .switchTo ret new)
    (h : switchStep s θ x ret new = some s') (y : TaskId Θ T) : (s'.pc y).Fits s'.aw := by
  obtain ⟨z, -, -, -, haw, -, -, hpc'⟩ := switchStep_cases h
  rw [haw, hpc']
  by_cases hyz : y = z
  · subst hyz
    rw [Function.update_self]
    exact (hfits y).resumed new _ _
  · rw [Function.update_of_ne hyz]
    by_cases hyx : y = x
    · subst hyx
      rw [Function.update_self]
      have hold := hfits y
      rw [hpc] at hold
      exact .of_closed rfl hold.behind
    · rw [Function.update_of_ne hyx]
      exact hfits y

/-- The words and the points after an access. -/
theorem Closing.fits_go (hs : Closing s)
    (h : goStep bg s θ (s.exec θ) spurious (s.pc (s.exec θ)) = some s') :
    (∀ a, WordStep (s.aw a) (s'.aw a)) ∧ ∀ y, (s'.pc y).Fits s'.aw := by
  have hword := wordStep_goStep (hs.fits (s.exec θ)) h
  refine ⟨hword, fun y => ?_⟩
  by_cases hjump : ∃ ret new, s.pc (s.exec θ) = .switchTo ret new
  · obtain ⟨ret, new, hpc⟩ := hjump
    rw [hpc] at h
    exact fits_switchStep hs.fits hpc h y
  · rcases goStep_cases h with ⟨p', hin⟩ | ⟨ret, new, hpc, -⟩
    · by_cases hy : y = s.exec θ
      · subst hy
        exact fits_goStep rfl (hs.fits _) (hs.releases _)
          (fun ret new hpc => hjump ⟨ret, new, hpc⟩) h
      · rw [hin.pc, Function.update_of_ne hy]
        exact (hs.fits y).mono fun a => (hword a).isFinished
    · exact absurd ⟨ret, new, hpc⟩ hjump

/-- The words and the points after a step. -/
theorem Closing.fits_step (hs : Closing s) (h : step bg s l = some s') :
    (∀ a, WordStep (s.aw a) (s'.aw a)) ∧ ∀ y, (s'.pc y).Fits s'.aw := by
  obtain ⟨θ, c⟩ := l
  have hx := hs.fits (s.exec θ)
  cases c with
  | go spurious => exact hs.fits_go (by simpa only [step] using h)
  | pick t =>
      cases hpc : s.pc (s.exec θ) with
      | schedule ret me pc =>
          simp only [step, hpc] at h
          cases pc with
          | queue =>
              rw [hpc] at hx
              obtain ⟨haw, hfits⟩ := fits_pickStep hx.behind h
              obtain ⟨p', hin⟩ := inner_pickStep hpc h
              rw [haw]
              refine ⟨fun _ => .same rfl, fun y => ?_⟩
              by_cases hy : y = s.exec θ
              · subst hy
                exact hfits
              · rw [hin.pc, Function.update_of_ne hy]
                exact hs.fits y
          | _ => cases h
      | _ =>
          simp only [step, hpc] at h
          cases h
  | act action =>
      cases hpc : s.pc (s.exec θ) with
      | user =>
          simp only [step, hpc] at h
          obtain ⟨p', hacts⟩ := acts_of_actionStep hpc h
          rw [hacts.aw]
          refine ⟨fun _ => .same rfl, fun y => ?_⟩
          by_cases hy : y = s.exec θ
          · subst hy
            exact fits_actionStep h
          · rcases hacts.other y hy with hsame | ⟨t, -, -, hstart⟩
            · rw [hsame]
              exact hs.fits y
            · rw [hstart]
              exact .of_none rfl rfl
      | _ =>
          simp only [step, hpc] at h
          cases h

/-- **A step keeps what is closed.** -/
theorem closing_step (hs : Closing s) (h : step bg s l = some s') : Closing s' := by
  obtain ⟨hword, hfits⟩ := hs.fits_step h
  refine ⟨releases_step hs.releases h, hfits, fun a => (hword a).empty (hs.empty a), fun z hz => ?_⟩
  apply (hword (.own z)).isFinished
  -- only the ends of the two destructors destroy a task
  rcases step_destroyed h hz with hz | ⟨t, rfl, hpc⟩ | ⟨hpc, -⟩
  · exact hs.destroyed z hz
  · exact (hs.fits (s.exec l.1)).behind _ (by rw [hpc]; rfl)
  · exact (hs.fits (s.exec l.1)).behind _ (by rw [hpc]; rfl)

theorem closing_reach (h : (machine T A bg).Reachable s) : Closing s := by
  refine h.invariant (I := Closing) ?_ fun s l s' hs _ hstep => closing_step hs hstep
  rintro s rfl
  exact closing_init

/-- The release in the destructor of the task, or at the end of its
`_run_wrapper`, has taken effect, or the task is destroyed. -/
def Released (s : State Θ T A) (x : TaskId Θ T) : Prop :=
  s.life x = .destroyed ∨ ∃ y, (s.pc y).closed = some (.own x)

omit [DecidableEq Θ] [DecidableEq T] [DecidableEq A] in
theorem Closing.isFinished (hs : Closing s) (hx : Released s x) :
    (s.aw (.own x)).isFinished = true := by
  rcases hx with hx | ⟨y, hy⟩
  · exact hs.destroyed x hx
  · exact (hs.fits y).behind _ hy

/-- **The Awaitable of a destroyed task stays closed.**  From the release in its
destructor on, `m_awaitable` of a task is finished and no task is in its list,
in every run; `~Awaitable` returns at its first read. -/
theorem closed_for_good (h : (machine T A bg).Reachable s) (hx : Released s x)
    (hrun : (machine T A bg).Run Machine.anyStep s s') :
    (s'.aw (.own x)).isFinished = true ∧ (s'.aw (.own x)).head = none ∧
      dtorWaits (s'.aw (.own x)) = false := by
  have hboth : Closing s' ∧ (s'.aw (.own x)).isFinished = true := by
    refine hrun.preserves (I := fun u => Closing u ∧ (u.aw (.own x)).isFinished = true) ?_
      ⟨closing_reach h, (closing_reach h).isFinished hx⟩
    intro u l v hu _ hstep
    exact ⟨closing_step hu.1 hstep, ((hu.1.fits_step hstep).1 _).isFinished hu.2⟩
  exact ⟨hboth.2, hboth.1.empty _ hboth.2, by simp [dtorWaits, hboth.2]⟩

/-- The task ends, its thread switches back and destroys it. -/
def finishedAndDestroyed : List (Label OsThread Unit Unit) :=
  finishedAndLeft ++ (main, .act (.destroy ())) :: goes main 4

theorem closed_for_good_finishedAndDestroyed : ∃ s : State OsThread Unit Unit,
    s.life (.unbound ()) = .destroyed ∧ (s.aw (.own (.unbound ()))).isFinished = true ∧
      dtorWaits (s.aw (.own (.unbound ()))) = false := by
  obtain ⟨s, hs, hp⟩ := Machine.exists_reach_of_replay
    (machine Unit Unit fun _ : OsThread => false) finishedAndDestroyed
    (fun s => s.life (.unbound ()) == .destroyed) rfl (by decide +kernel)
  have hlife : s.life (.unbound ()) = .destroyed := by simpa using hp
  obtain ⟨hfinished, -, hwaits⟩ := closed_for_good hs (.inl hlife) (.refl s)
  exact ⟨s, hlife, hfinished, hwaits⟩

end Scheduler

end Alterstack
