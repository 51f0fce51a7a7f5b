/-
  Alterstack.Scheduler.Exclusive — no `Task` is executed twice, stored twice,
  or executed and stored.

  A release that reaches a task between its insertion in a wait list and the
  end of its switch makes it Running too early: the task is then put into the
  running queue both by `post_jump_fcontext` and by the releaser, or it goes on
  without a switch and the releaser puts it there while it runs, or after it
  has finished.  Without such releases, and with native tasks that start to
  wait only while they are Running, every task has one place.

  Main results:
    * `twice_queued` — a run that stores one task twice in the running queue;
    * `exclusive_of_clean` — clean runs reach only states in which every task
      is executed or stored at most once.
-/
import Mathlib.Data.Fintype.Basic
import Alterstack.Scheduler.Orderly

namespace Alterstack

namespace Scheduler

open Lib (Machine)

variable {Θ T A : Type*}

/-! ## §1. Exclusive states and clean steps. -/

/-- The task the stack is about to put into the running queue. -/
def Pc.enqueueing : Pc Θ T A → Option (TaskId Θ T)
  | .postJump _ _ prevTask _ .enqueue => some prevTask
  | .addEnqueue _ _ _ _ task | .delayedEnqueue _ _ _ task => some task
  | _ => none

/-- Every `Task` is executed, stored, or about to be stored, in one place. -/
structure Exclusive (s : State Θ T A) : Prop where
  executed : ∀ θ θ' t, s.exec θ = .unbound t → s.exec θ' = .unbound t → θ = θ'
  stored : ∀ t, s.queued t ≤ 1
  apart : ∀ θ t, s.exec θ = .unbound t → s.queued t = 0
  enqueued : ∀ y t, (s.pc y).enqueueing = some (.unbound t) →
    s.queued t = 0 ∧ (∀ θ, s.exec θ ≠ .unbound t) ∧
      ∀ y', (s.pc y').enqueueing = some (.unbound t) → y' = y

/-- Native tasks start to wait only while they are Running. -/
def NativePausesRunning (s : State Θ T A) (l : Label Θ T A) : Prop :=
  ∀ x ∈ (s.pc (s.exec l.1)).pausing, x.isThreadBound = true → (s.task x).state = .running

/-- A step that neither makes a task Running before it is switched out, nor
lets a native task wait that waits already. -/
structure Clean (s : State Θ T A) (l : Label Θ T A) : Prop where
  wakes : WakesSwitchedOut s l
  pauses : NativePausesRunning s l

/-- The tasks for which clean runs are orderly. -/
abbrev IsUnbound (x : TaskId Θ T) : Prop := x.isThreadBound = false

theorem Clean.orderly {s : State Θ T A} {l : Label Θ T A} (h : Clean s l) :
    Orderly IsUnbound s l where
  wakes := h.wakes
  pauses := by
    intro x hx hb
    exact h.pauses x hx (by simpa using hb)
  fallsBack := by
    intro hn
    cases hn

variable [DecidableEq Θ] [DecidableEq T]

section Decidable

variable [Fintype Θ] [Fintype T] [DecidableEq A] (s : State Θ T A) (l : Label Θ T A)

instance decidableForallTask {P : TaskId Θ T → Prop} [DecidablePred P] : Decidable (∀ x, P x) :=
  decidable_of_iff ((∀ θ, P (.native θ)) ∧ ∀ t, P (.unbound t)) <| by
    constructor
    · rintro ⟨hn, hu⟩ (θ | t)
      · exact hn θ
      · exact hu t
    · exact fun h => ⟨fun θ => h _, fun t => h _⟩

instance (x : TaskId Θ T) : Decidable (SwitchedOut s x) :=
  inferInstanceAs (Decidable ((∀ θ, s.exec θ ≠ x) ∧ ∀ y, (s.pc y).leaving ≠ some x))

instance : Decidable (WakesSwitchedOut s l) :=
  inferInstanceAs (Decidable (∀ x ∈ (s.pc (s.exec l.1)).waking,
    x.isThreadBound = false → SwitchedOut s x))

instance : Decidable (FallsBackRunning s l) :=
  inferInstanceAs (Decidable (∀ x ∈ (s.pc (s.exec l.1)).fallingBack,
    (s.task x).state ≠ .running → (s.task (.native l.1)).state = .running))

instance : Decidable (NativePausesRunning s l) :=
  inferInstanceAs (Decidable (∀ x ∈ (s.pc (s.exec l.1)).pausing,
    x.isThreadBound = true → (s.task x).state = .running))

instance : Decidable (Clean s l) :=
  decidable_of_iff (WakesSwitchedOut s l ∧ NativePausesRunning s l)
    ⟨fun h => ⟨h.1, h.2⟩, fun h => ⟨h.1, h.2⟩⟩

end Decidable

/-! ## §2. Clean runs are exclusive. -/

omit [DecidableEq Θ] [DecidableEq T] in
/-- What is about to be enqueued is claimed, delayed tasks apart. -/
theorem Pc.ready_of_enqueueing {p : Pc Θ T A} {x z : TaskId Θ T} (hloc : p.Local x)
    (h : p.enqueueing = some z) : p.ready = some z := by
  cases p with
  | postJump ret me prev fctx pc =>
      cases pc with
      | enqueue => exact h
      | _ => cases h
  | addEnqueue => exact h
  | delayedEnqueue => exact hloc.elim
  | _ => cases h

theorem Good.exclusive {W : TaskId Θ T → Prop} {s : State Θ T A} (h : Good W s) :
    Exclusive s := by
  obtain ⟨tok, L, h⟩ := h
  have hready : ∀ y t, (s.pc y).enqueueing = some (.unbound t) →
      (s.pc y).ready = some (.unbound t) := fun y t hy =>
    Pc.ready_of_enqueueing (h.threads.locals y) hy
  refine ⟨?_, h.tokens.queued_le, ?_, ?_⟩
  · intro θ θ' t hθ hθ'
    exact h.tokens.exec_unique h.threads hθ' hθ
  · intro θ t hθ
    by_contra hq
    have := (h.tokens.only_of_queued (Nat.pos_of_ne_zero hq)).2.1 θ
    exact this hθ
  · intro y t hy
    obtain ⟨hothers, hexec, hq, -, -⟩ := h.tokens.only_of_ready (hready y t hy)
    refine ⟨hq, hexec, fun y' hy' => ?_⟩
    by_contra hne
    exact (hothers y' hne).1 (hready y' t hy')

variable [DecidableEq A]

theorem good_of_clean {bg : Θ → Bool} {s : State Θ T A}
    (h : (machine T A bg).Reach Clean s) : Good IsUnbound s :=
  inv_reach (fun _ => rfl) (fun _ _ _ hok => hok.orderly) h

/-- **Every task has one place in clean runs.** -/
theorem exclusive_of_clean {bg : Θ → Bool} {s : State Θ T A}
    (h : (machine T A bg).Reach Clean s) : Exclusive s :=
  (good_of_clean h).exclusive

/-- The OS threads of the runs below. -/
inductive OsThread where
  | main
  | second
  deriving DecidableEq

open OsThread

instance : Fintype OsThread where
  elems := ⟨[main, second], by decide⟩
  complete := by
    rintro (_ | _)
    · exact .head _
    · exact .tail _ (.head _)

/-- The main thread constructs a task, which waits and is switched out; then
another thread releases it. -/
def releasedAfterSwitch : List (Label OsThread Unit Unit) :=
  (main, .act (.create ())) :: goes main 4 ++ (main, .act (.wait ())) :: goes main 10 ++
    (second, .act (.release ())) :: goes second 5

theorem exclusive_releasedAfterSwitch :
    ∃ s : State OsThread Unit Unit, (machine Unit Unit fun _ => false).Reach Clean s ∧
      s.queued () = 1 ∧ Exclusive s := by
  obtain ⟨s, hs, hp⟩ := Machine.exists_reach_of_replayOk
    (machine Unit Unit fun _ : OsThread => false) Clean releasedAfterSwitch
    (fun s => s.queued () == 1) rfl (by decide +kernel)
  exact ⟨s, hs, by simpa using hp, exclusive_of_clean hs⟩

/-! ## §3. A release before the switch. -/

/-- The task is inserted, released by another thread, which delays it because
its context is null, and then switched out: both enqueue it. -/
def releasedBeforeSwitch : List (Label OsThread Unit Unit) :=
  (main, .act (.create ())) :: goes main 4 ++ (main, .act (.wait ())) :: goes main 4 ++
    (second, .act (.release ())) :: goes second 4 ++ goes main 5 ++ goes second 2 ++ goes main 2

/-- **One insertion and one release store the task twice.** -/
theorem twice_queued : ∃ s : State OsThread Unit Unit,
    (machine Unit Unit fun _ => false).Reachable s ∧ s.queued () = 2 ∧ ¬ Exclusive s := by
  obtain ⟨s, hs, hp⟩ := Machine.exists_reach_of_replay
    (machine Unit Unit fun _ : OsThread => false) releasedBeforeSwitch
    (fun s => s.queued () == 2) rfl (by decide +kernel)
  have hq : s.queued () = 2 := by simpa using hp
  refine ⟨s, hs, hq, fun he => ?_⟩
  have := he.stored ()
  omega

end Scheduler

end Alterstack
