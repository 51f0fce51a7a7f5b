/-
  Alterstack.Scheduler.Waiting — `wait` returns only after the release.

  `wait` does not look at the Awaitable again when it is resumed.  A task that
  is resumed from the running queue has been released; but `get_next_task`
  also falls back to the native task of the thread when an unbound task stops
  and the queue is empty, and this native task may itself be waiting.

  Main results:
    * `returned_unreleased` — a run in which the fallback makes `wait` return;
    * `released_of_steady` — without such fallbacks every `wait` that returns
      has been released.
-/
import Alterstack.Scheduler.Exclusive

namespace Alterstack

namespace Scheduler

open Lib (Machine)
open OsThread

variable {Θ T A : Type*}

/-! ## §1. Steady steps. -/

/-- Whatever `wait` returns from has been released. -/
def ReturnsReleased (s : State Θ T A) : Prop :=
  ∀ x a inserted, s.pc x = .waitRet a inserted → (s.aw a).isFinished = true

/-- A step that neither makes a task Running before it is switched out, nor
falls back to a native task that is not Running. -/
structure Steady (s : State Θ T A) (l : Label Θ T A) : Prop where
  wakes : WakesSwitchedOut s l
  fallsBack : FallsBackRunning s l

/-- Steady runs are orderly for all tasks. -/
abbrev AnyTask (_ : TaskId Θ T) : Prop := True

theorem Steady.orderly {s : State Θ T A} {l : Label Θ T A} (h : Steady s l) :
    Orderly AnyTask s l where
  wakes := h.wakes
  pauses := by
    intro x _ hx
    exact absurd trivial hx
  fallsBack := fun _ => h.fallsBack

variable [DecidableEq Θ] [DecidableEq T] [DecidableEq A]

instance [Fintype Θ] [Fintype T] (s : State Θ T A) (l : Label Θ T A) : Decidable (Steady s l) :=
  decidable_of_iff (WakesSwitchedOut s l ∧ FallsBackRunning s l)
    ⟨fun h => ⟨h.1, h.2⟩, fun h => ⟨h.1, h.2⟩⟩

/-! ## §2. Steady runs. -/

theorem good_of_steady {bg : Θ → Bool} {s : State Θ T A}
    (h : (machine T A bg).Reach Steady s) : Good AnyTask s :=
  inv_reach (fun _ => trivial) (fun _ _ _ hok => hok.orderly) h

/-- **Without bad fallbacks `wait` returns only after the release.** -/
theorem released_of_steady {bg : Θ → Bool} {s : State Θ T A}
    (h : (machine T A bg).Reach Steady s) : ReturnsReleased s := by
  intro x a inserted hpc
  obtain ⟨tok, L, hinv⟩ := good_of_steady h
  apply hinv.awake.woken x a trivial
  rw [hpc]
  rfl

/-- The task waits and is switched out, the main thread releases it and yields
to it. -/
def resumedAfterRelease : List (Label OsThread Unit Bool) :=
  (main, .act (.create ())) :: goes main 4 ++ (main, .act (.wait false)) :: goes main 10 ++
    (main, .act (.release false)) :: goes main 5 ++ (main, .act .yield) ::
    (main, .pick (some ())) :: goes main 4

theorem released_resumedAfterRelease :
    ∃ s : State OsThread Unit Bool, (machine Unit Bool fun _ => false).Reach Steady s ∧
      s.pc (.unbound ()) = .waitRet (.user false) true ∧ ReturnsReleased s := by
  obtain ⟨s, hs, hp⟩ := Machine.exists_reach_of_replayOk
    (machine Unit Bool fun _ : OsThread => false) Steady resumedAfterRelease
    (fun s => s.pc (.unbound ()) == .waitRet (.user false) true) rfl (by decide +kernel)
  exact ⟨s, hs, by simpa using hp, released_of_steady hs⟩

/-! ## §3. A fallback to a waiting native task. -/

/-- The main thread waits, and the task it switches to waits as well: the queue
is empty, so the scheduler switches back. -/
def fallbackToWaiting : List (Label OsThread Unit Bool) :=
  (main, .act (.create ())) :: goes main 4 ++ (main, .act .yield) :: goes main 7 ++
    (main, .act (.wait false)) :: goes main 4 ++ (main, .pick (some ())) :: goes main 4 ++
    (main, .act (.wait true)) :: goes main 5 ++ (main, .pick none) :: goes main 5

/-- **`wait` returns although nobody has released the Awaitable.** -/
theorem returned_unreleased : ∃ s : State OsThread Unit Bool,
    (machine Unit Bool fun _ => false).Reachable s ∧ ¬ ReturnsReleased s := by
  obtain ⟨s, hs, hp⟩ := Machine.exists_reach_of_replay
    (machine Unit Bool fun _ : OsThread => false) fallbackToWaiting
    (fun s => s.pc (.native main) == .waitRet (.user false) true &&
      !(s.aw (.user false)).isFinished) rfl (by decide +kernel)
  simp only [Bool.and_eq_true, beq_iff_eq, Bool.not_eq_true'] at hp
  refine ⟨s, hs, fun h => ?_⟩
  have := h _ _ _ hp.1
  rw [hp.2] at this
  cases this

end Scheduler

end Alterstack
