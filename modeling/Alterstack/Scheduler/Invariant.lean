/-
  Alterstack.Scheduler.Invariant — the invariant of orderly runs.

  A run is orderly for the tasks `W` when
    * `add_waiting_list_to_running` stores Running into an unbound task only
      after that task has been switched out completely: no thread executes it
      and no `post_jump_fcontext` still has to look at its state;
    * `insert_current_task_in_waitlist` of a task outside `W` stores Waiting
      only over Running;
    * if `W` has the native task of the thread, `get_next_task` falls back to
      it only while it is Running.
  In orderly runs the parts of the invariant (`Threads`, `Tokens`, `WaitLists`,
  `Awake`) hold together.

  Main results:
    * `Inv.setPc`, `Inv.plain`, `Inv.code` — an executed stack moves without a
      store.
-/
import Alterstack.Scheduler.WaitLists
import Alterstack.Scheduler.Awake

namespace Alterstack

namespace Scheduler

open Lib (Seg Layout Machine)
open Awaitable (InsertPc InsertNext insertStep ReleasePc ReleaseNext releaseStep)

variable {Θ T A : Type*}

/-! ## §1. Orderly steps. -/

/-- The task in whose `m_state` the next step stores Running on release. -/
def Pc.waking : Pc Θ T A → Option (TaskId Θ T)
  | .addState _ _ task _ => some task
  | _ => none

/-- The task in whose `m_state` the next step stores Waiting. -/
def Pc.pausing : Pc Θ T A → Option (TaskId Θ T)
  | .insert _ currentTask (.setState _) => some currentTask
  | _ => none

/-- No thread executes `x`, and none still has to read its state after the
switch. -/
def SwitchedOut (s : State Θ T A) (x : TaskId Θ T) : Prop :=
  (∀ θ, s.exec θ ≠ x) ∧ ∀ y, (s.pc y).leaving ≠ some x

/-- The unbound task for which `get_next_task` has found nothing, while its
`current_state` is read. -/
def Pc.fallingBack : Pc Θ T A → Option (TaskId Θ T)
  | .schedule _ currentTask (.currentState none) => some currentTask
  | _ => none

/-- A released unbound task has been switched out before. -/
def WakesSwitchedOut (s : State Θ T A) (l : Label Θ T A) : Prop :=
  ∀ x ∈ (s.pc (s.exec l.1)).waking, x.isThreadBound = false → SwitchedOut s x

/-- The fallback to the native task of the thread finds it Running. -/
def FallsBackRunning (s : State Θ T A) (l : Label Θ T A) : Prop :=
  ∀ x ∈ (s.pc (s.exec l.1)).fallingBack, (s.task x).state ≠ .running →
    (s.task (.native l.1)).state = .running

structure Orderly (W : TaskId Θ T → Prop) (s : State Θ T A) (l : Label Θ T A) : Prop where
  wakes : WakesSwitchedOut s l
  pauses : ∀ x ∈ (s.pc (s.exec l.1)).pausing, ¬ W x → (s.task x).state = .running
  fallsBack : W (.native l.1) → FallsBackRunning s l

/-! ## §2. The invariant, and steps to plain points. -/

structure Inv (W : TaskId Θ T → Prop) (s : State Θ T A) (tok : T → Tok Θ T)
    (L : Layout (Place Θ T A) (TaskId Θ T)) : Prop where
  threads : Threads s.pc s.exec s.cur s.wrapper
  tokens : Tokens s.pc s.exec s.queued s.task tok
  lists : WaitLists W s.pc s.task s.aw s.insertedIn L
  awake : Awake W s.pc s.task s.aw s.insertedIn
  life : ∀ t, s.life (.unbound t) = .unborn → s.pc (.unbound t) = .unborn

/-- Some tokens and some layout fit the state. -/
def Good (W : TaskId Θ T → Prop) (s : State Θ T A) : Prop := ∃ tok L, Inv W s tok L

/-- A point without claims, lists and assertions. -/
structure Pc.Plain (p : Pc Θ T A) : Prop where
  on : p.off = false
  ready : p.ready = none
  leaving : p.leaving = none
  unsaved : p.unsaved = none
  list : p.list = none
  sawFinished : p.sawFinished = none
  inserting : ∀ L x f, p.Inserting L x f

variable [DecidableEq Θ] [DecidableEq T] {W : TaskId Θ T → Prop} {s : State Θ T A}
  {tok : T → Tok Θ T} {L : Layout (Place Θ T A) (TaskId Θ T)} {θ : Θ} {x y z : TaskId Θ T}
  {p p' : Pc Θ T A} {spurious : Bool}

theorem inv_init : Good W (initial : State Θ T A) :=
  ⟨_, _, threads_init, tokens_init, waitLists_init W, awake_init W, fun _ _ => rfl⟩

theorem Inv.life_setPc (h : Inv W s tok L) (hx : s.exec θ = x) (t : T)
    (ht : s.life (.unbound t) = .unborn) :
    Function.update s.pc x p' (.unbound t) = .unborn := by
  have hne : TaskId.unbound t ≠ x := by
    rintro rfl
    have hon := h.threads.on θ
    rw [hx, h.life t ht] at hon
    cases hon
  rw [Function.update_of_ne hne]
  exact h.life t ht

/-- An executed stack moves without writing anything. -/
theorem Inv.setPc (h : Inv W s tok L) (hx : s.exec θ = x) (hpc : s.pc x = p) (hloc : p'.Local x)
    (hon : p'.off = false)
    (hr : ∀ z, p'.ready = some z → p.ready = some z ∨ ∃ θ', z = .native θ' ∧ s.exec θ' = x)
    (hl : p'.leaving = none ∨ p'.leaving = p.leaving) (hu : p'.unsaved = p.unsaved)
    (hend : p'.ended = p.ended) (hlist : p'.list = p.list)
    (hrel : p'.releasing = p.releasing ∨ p'.list = none)
    (hins : p'.Inserting L x (s.task x))
    (hsaw : ∀ a, p'.sawFinished = some a → (s.aw a).isFinished = true)
    (hexit : p ≠ .exited) (hawake : Awake W (Function.update s.pc x p') s.task s.aw s.insertedIn) :
    Inv W (s.setPc x p') tok L := by
  subst hpc
  have honx : (s.pc x).off = false := hx ▸ h.threads.on θ
  refine ⟨h.threads.setPc hx hloc hon, ?_, ?_, hawake, fun t ht => h.life_setPc hx t ht⟩
  · refine h.tokens.quiet hx honx hon hr (fun z hz => ?_) hu hend
    rcases hl with hl | hl <;> rw [hl] at hz
    · cases hz
    · exact hz
  · exact h.lists.quiet hlist hrel hexit hins hsaw

/-- An executed stack moves to a plain point. -/
theorem Inv.plain (h : Inv W s tok L) (hx : s.exec θ = x) (hpc : s.pc x = p) (hloc : p'.Local x)
    (hp : p'.Plain) (hu : p.unsaved = none) (hlist : p.list = none) (hend : p'.ended = p.ended)
    (hexit : p ≠ .exited) (hawake : Awake W (Function.update s.pc x p') s.task s.aw s.insertedIn) :
    Inv W (s.setPc x p') tok L := by
  refine h.setPc hx hpc hloc hp.on ?_ (.inl hp.leaving) (hp.unsaved.trans hu.symm) hend
    (hp.list.trans hlist.symm) (.inr hp.list) (hp.inserting _ _ _) ?_ hexit hawake
  · intro z hz
    rw [hp.ready] at hz
    cases hz
  · intro a ha
    rw [hp.sawFinished] at ha
    cases ha

/-- Points of running code that say nothing about tasks and lists. -/
def Pc.isCode : Pc Θ T A → Bool
  | .user | .insert _ _ .load | .joinState _ | .joinRet _ | .release _ _ _ | .finishState _
  | .exitState _ | .dtorState _ | .dtorContext _ | .dtorFree _ => true
  | _ => false

omit [DecidableEq Θ] [DecidableEq T] in
theorem Pc.plain_of_isCode (hp : p.isCode = true) :
    p.Plain ∧ p.ended = false ∧ p.asleep = none ∧ p.woken = none := by
  cases p with
  | insert a me pc =>
      cases pc with
      | load => exact ⟨⟨rfl, rfl, rfl, rfl, rfl, rfl, fun _ _ _ => trivial⟩, rfl, rfl, rfl⟩
      | _ => cases hp
  | _ =>
      first
        | exact ⟨⟨rfl, rfl, rfl, rfl, rfl, rfl, fun _ _ _ => trivial⟩, rfl, rfl, rfl⟩
        | cases hp

/-- From one point of running code to another. -/
theorem Inv.code (h : Inv W s tok L) (hx : s.exec θ = x) (hpc : s.pc x = p) (hloc : p'.Local x)
    (hcode : p'.isCode = true) (hu : p.unsaved = none) (hlist : p.list = none)
    (hend : p.ended = false) (ha : p.awake = true) : Inv W (s.setPc x p') tok L := by
  obtain ⟨hp, hend', hasleep, hwoken⟩ := Pc.plain_of_isCode hcode
  have hexit : p ≠ .exited := by
    rintro rfl
    cases ha
  refine h.plain hx hpc hloc hp hu hlist (hend'.trans hend.symm) hexit (h.awake.quiet ?_)
  rw [hpc]
  refine ⟨fun _ => ha, ?_, ?_, ?_⟩
  · rw [hasleep]
    nofun
  · rw [hwoken]
    nofun
  · rw [hp.ready]
    nofun

omit [DecidableEq Θ] [DecidableEq T] in
/-- The points of `do_schedule` say the same about the state. -/
theorem follows_schedule {ret : SchedRet Θ T A} {me : TaskId Θ T} {pc pc' : SchedPc Θ T}
    (hp : (Pc.schedule ret me pc').Plain) :
    (Pc.schedule ret me pc).Follows (.schedule ret me pc') := by
  refine ⟨fun h => h, fun _ h => h, nofun, ?_⟩
  rw [hp.ready]
  nofun

omit [DecidableEq Θ] [DecidableEq T] in
theorem plain_schedule {ret : SchedRet Θ T A} {me : TaskId Θ T} {pc : SchedPc Θ T}
    (h : ∀ z, pc ≠ .currentState (some z)) : (Pc.schedule ret me pc).Plain := by
  refine ⟨rfl, ?_, rfl, rfl, rfl, rfl, fun _ _ _ => trivial⟩
  cases pc with
  | currentState z =>
      cases z with
      | none => rfl
      | some z => exact absurd rfl (h z)
  | _ => rfl

omit [DecidableEq Θ] [DecidableEq T] in
theorem nextTaskPc_ne {bg : Θ → Bool} {θ : Θ} {me : TaskId Θ T} (z : TaskId Θ T) :
    nextTaskPc bg θ me ≠ .currentState (some z) := by
  unfold nextTaskPc
  split
  · nofun
  · split <;> nofun

omit [DecidableEq Θ] [DecidableEq T] in
theorem plain_schedule_start {ret : SchedRet Θ T A} {me : TaskId Θ T} {bg : Θ → Bool} :
    (Pc.schedule ret me (nextTaskPc bg θ me)).Plain := plain_schedule nextTaskPc_ne

omit [DecidableEq Θ] [DecidableEq T] in
/-- A thread-bound task looks into the queue only. -/
theorem nextTaskPc_onlyUnbound {bg : Θ → Bool} {me : TaskId Θ T}
    (h : (nextTaskPc bg θ me).onlyUnbound = true) : me.isThreadBound = false := by
  unfold nextTaskPc at h
  split at h
  · cases h
  next hb => simpa using hb

end Scheduler

end Alterstack
