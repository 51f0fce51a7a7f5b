/-
  Alterstack.Runtime.Progress — no OS thread gets stuck.

  `jump_fcontext` relies on its caller: the context it is given is the saved
  continuation of a stack that no thread executes.  Behind the last `schedule`
  of `_run_wrapper` stands `__builtin_unreachable`, and a call of the running
  queue has to come back to the point that made it.  In clean runs all three
  hold, so every thread that has not ended can make its next access.

  A thread goes on, but it may block: in `native_futex.wait()`, which stands in
  a branch of `do_schedule` for the native task of a Common thread alone.  Here
  that wait is an access which may return at any time; `BgThread::wait` is code
  of the program.

  Main results:
    * `Inv.jump_saved` — what a stack is about to switch to is saved, and
      nobody executes it;
    * `goStep_enabled`, `queueReturn_enabled` — every access is defined when
      the jumps are, and so is every return from the queue;
    * `never_stuck` — the three together, over the real running queue;
    * `only_common_blocks` — who comes to the futex.
-/
import Alterstack.Runtime.Refinement
import Alterstack.Scheduler.Blocking
import Alterstack.Scheduler.Finished

namespace Alterstack

namespace Scheduler

open Lib (Layout)

variable {Θ T A : Type*} {W : TaskId Θ T → Prop} {s : State Θ T A} {tok : T → Tok Θ T}
  {L : Layout (Place Θ T A) (TaskId Θ T)} {θ : Θ} {x y : TaskId Θ T} {ret : SchedRet Θ T A}

/-! ## §1. The context of a jump. -/

/-- A thread executes every stack that is about to jump. -/
theorem Inv.exec_of_switchTo (h : Inv W s tok L) (hpc : s.pc x = .switchTo ret y) :
    ∃ θ, s.exec θ = x := by
  by_contra hnot
  have hoff := h.threads.off x (fun θ hθ => hnot ⟨θ, hθ⟩)
  rw [hpc] at hoff
  cases hoff

/-- **A jump goes to a saved continuation**, of a stack that nobody executes. -/
theorem Inv.jump_saved [DecidableEq Θ] [DecidableEq T] (h : Inv W s tok L)
    (hpc : s.pc x = .switchTo ret y) :
    (s.task y).context = .fcontext y ∧ ∀ θ, s.exec θ ≠ y := by
  obtain ⟨θ, hx⟩ := h.exec_of_switchTo hpc
  obtain ⟨hoff, hborn, -⟩ := h.target hx hpc
  have hready : (s.pc x).ready = some y := by rw [hpc]; rfl
  refine ⟨?_, fun θ' => h.threads.not_exec_of_off hoff⟩
  cases y with
  | unbound t => exact h.context_of_ready hready
  | native θ' =>
      rcases h.tokens.saved _ hoff hborn with hcontext | ⟨z, hz⟩
      · exact hcontext
      · -- only this thread could still be storing it, and it has gone on
        have hexec := h.tokens.leavingNative z θ' (Pc.leaving_of_unsaved hz)
        have hzx : z = x := hexec.symm.trans (h.tokens.readyNative x θ' hready)
        rw [hzx, hpc] at hz
        cases hz

end Scheduler

namespace Runtime

open Queue Scheduler
open Lib (Layout Machine)

variable {Θ T A : Type*} [DecidableEq Θ] [DecidableEq T] [DecidableEq A] {bg : Θ → Bool}
  {c : State Θ T A} {a : Scheduler.State Θ T A} {θ : Θ}
  {L : Layout (Conservation.Place (TaskId Θ T)) (TaskId Θ T)}

/-! ## §2. Every access is defined. -/

/-- The accesses of a stack that is executed, the look into the queue apart. -/
theorem goStep_enabled (bg : Θ → Bool) (s : Scheduler.State Θ T A) (θ : Θ) (x : TaskId Θ T)
    (spurious : Bool) {p : Scheduler.Pc Θ T A} (hon : p.off = false) (huser : p ≠ .user)
    (hend : p ≠ .exited) (hreach : p ≠ .unreachable)
    (hjump : ∀ ret new, p = .switchTo ret new → (s.task new).context = .fcontext new)
    (hqueue : ∀ ret me, p ≠ .schedule ret me .queue) :
    ∃ s', goStep bg s θ x spurious p = some s' := by
  cases p with
  | unborn => cases hon
  | start => cases hon
  | suspended ret oldTask => cases hon
  | user => exact absurd rfl huser
  | exited => exact absurd rfl hend
  | unreachable => exact absurd rfl hreach
  | switchTo ret new =>
      simp only [goStep, switchStep, hjump ret new rfl]
      exact ⟨_, rfl⟩
  | schedule ret me pc =>
      show ∃ s', scheduleStep bg s θ x ret me pc = some s'
      cases pc with
      | queue => exact absurd rfl (hqueue ret me)
      | running =>
          simp only [scheduleStep]
          split <;> exact ⟨_, rfl⟩
      | currentState nextTask => cases nextTask <;> exact ⟨_, rfl⟩
      | _ => exact ⟨_, rfl⟩
  | dtorState t =>
      simp only [goStep]
      split <;> exact ⟨_, rfl⟩
  | dtorContext t =>
      simp only [goStep]
      split <;> exact ⟨_, rfl⟩
  | _ => exact ⟨_, rfl⟩

/-- A call of the queue returns to the point that made it. -/
theorem queueReturn_enabled (bg : Θ → Bool) (s : Scheduler.State Θ T A) (θ : Θ) (x : TaskId Θ T)
    (item : Option (TaskId Θ T)) {p : Scheduler.Pc Θ T A} {task : Option (TaskId Θ T)}
    (hput : task = p.enqueueing) (hget : task = none → ∃ ret me, p = .schedule ret me .queue) :
    ∃ s', queueReturn bg s θ x item p = some s' := by
  cases htask : task with
  | none =>
      obtain ⟨ret, me, rfl⟩ := hget htask
      exact ⟨_, rfl⟩
  | some z =>
      rw [htask] at hput
      cases p with
      | postJump ret me prev fctx pc => exact ⟨_, rfl⟩
      | addEnqueue ret a taskList delayed task => exact ⟨_, rfl⟩
      | delayedEnqueue ret a delayed task => exact ⟨_, rfl⟩
      | _ => cases hput

/-- A thread inside the queue goes on. -/
theorem step_enabled_of_call (h : Sim c a L) {pc : LockFreeQueue.Pc (TaskId Θ T)}
    (hcall : c.call (c.sched.exec θ) = some pc) :
    ∃ c', step bg c (θ, .queue false) = some c' := by
  obtain ⟨hput, hget⟩ := h.holds.points _ pc hcall
  simp only [step, hcall, afterQueue]
  split
  next => exact ⟨_, rfl⟩
  next item more hr =>
    obtain ⟨s', hs'⟩ := queueReturn_enabled bg
      (c.sched.withLinks (c.queue.step false c.sched.link pc).2.1) θ (c.sched.exec θ) item hput hget
    exact ⟨_, Option.map_eq_some_iff.mpr ⟨s', hs', rfl⟩⟩

/-- A thread outside the queue goes on. -/
theorem step_enabled_of_good (h : Sim c a L) (hgood : Good IsUnbound a)
    (hcall : c.call (c.sched.exec θ) = none) (hend : c.sched.pc (c.sched.exec θ) ≠ .exited) :
    ∃ choice c', step bg c (θ, choice) = some c' := by
  have hreach := hgood.not_unreachable (c.sched.exec θ)
  obtain ⟨tok, L', hinv⟩ := hgood
  have hon : (c.sched.pc (c.sched.exec θ)).off = false := by
    rw [← h.pc, ← h.exec]
    exact hinv.threads.on θ
  rw [h.pc] at hreach
  by_cases hat : (callAt 0 (c.sched.pc (c.sched.exec θ))).isSome = true
  · obtain ⟨pc, hpc⟩ := Option.isSome_iff_exists.mp hat
    refine ⟨.call 0, { c with call := Function.update c.call (c.sched.exec θ) (some pc) }, ?_⟩
    simp only [step, hcall, hpc, Option.map_some]
  · by_cases huser : c.sched.pc (c.sched.exec θ) = .user
    · refine ⟨.act .yield,
        { c with sched := Scheduler.schedule bg c.sched θ (c.sched.exec θ) .yield }, ?_⟩
      simp only [step, hcall, Scheduler.step, huser, actionStep, Option.map_some]
    · obtain ⟨s', hs'⟩ := goStep_enabled bg c.sched θ (c.sched.exec θ) false hon
        huser hend hreach
        (fun ret new hpc => by
          rw [← h.context]
          exact (hinv.jump_saved (by rw [h.pc]; exact hpc)).1)
        (fun ret me hpc => by
          rw [hpc] at hat
          exact hat rfl)
      refine ⟨.go false, { c with sched := s' }, ?_⟩
      simp only [step, hcall, hat, hs', Option.map_some]
      rfl

/-! ## §3. Clean runs. -/

/-- **No thread gets stuck in clean runs.**  Every jump goes to the saved
continuation of a stack that nobody executes, nobody comes to the code behind
the last `schedule` of `_run_wrapper`, and every thread that has not ended can
make its next access, inside the running queue as well. -/
theorem never_stuck (h : (machine T A bg).Reach Clean c) :
    (∀ x ret new, c.sched.pc x = .switchTo ret new →
      (c.sched.task new).context = .fcontext new ∧ ∀ θ, c.sched.exec θ ≠ new) ∧
    (∀ x, c.sched.pc x ≠ .unreachable) ∧
    ∀ θ, c.sched.pc (c.sched.exec θ) ≠ .exited → ∃ choice c', step bg c (θ, choice) = some c' := by
  obtain ⟨a, -, hgood, L, hsim⟩ := exists_bagRun h
  refine ⟨fun x ret new hpc => ?_, fun x => ?_, fun θ hend => ?_⟩
  · obtain ⟨tok, L', hinv⟩ := hgood
    rw [← hsim.context, ← hsim.exec]
    exact hinv.jump_saved (by rw [hsim.pc]; exact hpc)
  · rw [← hsim.pc]
    exact hgood.not_unreachable x
  · cases hcall : c.call (c.sched.exec θ) with
    | none => exact step_enabled_of_good hsim hgood hcall hend
    | some pc => exact ⟨.queue false, step_enabled_of_call hsim hcall⟩

open OsThread

/-- The main thread finds the task in the stack and is about to switch to it. -/
def takenOut : List (Label OsThread Unit Unit) :=
  releasedIntoQueue ++ [(main, .queue false)]

theorem never_stuck_takenOut : ∃ c : State OsThread Unit Unit,
    c.sched.pc (.native main) = .switchTo .yield (.unbound ()) ∧
      (c.sched.task (.unbound ())).context = .fcontext (.unbound ()) ∧
      ∃ choice c', step (fun _ => false) c (main, choice) = some c' := by
  obtain ⟨c, hc, hp⟩ := Machine.exists_reach_of_replayOk
    (machine Unit Unit fun _ : OsThread => false) Clean takenOut
    (fun c => c.sched.pc (.native main) == .switchTo .yield (.unbound ()) &&
      c.sched.exec main == .native main) rfl (by decide +kernel)
  simp only [Bool.and_eq_true, beq_iff_eq] at hp
  obtain ⟨hjump, -, hstep⟩ := never_stuck hc
  have hend : c.sched.pc (c.sched.exec main) ≠ .exited := by simp [hp.2, hp.1]
  exact ⟨c, hp.1, (hjump _ _ _ hp.1).1, hstep main hend⟩

/-- **Only bound tasks of Common threads block.**  In clean runs a thread comes
to `native_futex.wait()` in the code of its native task only, and no BgThread
does: its native task is never Waiting. -/
theorem only_common_blocks (h : (machine T A bg).Reach Clean c) :
    (∀ x ret me pc, c.sched.pc x = .schedule ret me pc → pc = .waiting ∨ pc = .futex →
      ∃ θ, x = .native θ ∧ bg θ = false ∧ c.sched.exec θ = x) ∧
    ∀ θ, bg θ = true → (c.sched.task (.native θ)).state ≠ .waiting := by
  obtain ⟨a, ha, -, L, hsim⟩ := exists_bagRun h
  refine ⟨fun x ret me pc hpc hblocks => ?_, fun θ hbg => ?_⟩
  · rw [← hsim.pc] at hpc
    rw [← hsim.exec]
    exact blocks_of_clean ha hpc hblocks
  · rw [← hsim.state]
    exact (bgAwake_of_clean ha).2.awake θ hbg

/-- The main thread waits on an Awaitable and finds nothing in the queue. -/
def waitsAlone : List (Label OsThread Unit Unit) :=
  (main, .act (.wait ())) :: List.replicate 4 (main, .go false) ++
    (main, .call 0) :: List.replicate 12 (main, .queue false) ++ List.replicate 2 (main, .go false)

theorem only_common_blocks_waitsAlone : ∃ (c : State OsThread Unit Unit) (θ : OsThread),
    c.sched.pc (.native main) = .schedule (.wait (.user ())) (.native main) .futex ∧
      (TaskId.native main : TaskId OsThread Unit) = .native θ ∧ c.sched.exec θ = .native main := by
  obtain ⟨c, hc, hp⟩ := Machine.exists_reach_of_replayOk
    (machine Unit Unit fun θ : OsThread => θ == second) Clean waitsAlone
    (fun c => c.sched.pc (.native main) == .schedule (.wait (.user ())) (.native main) .futex)
    rfl (by decide +kernel)
  have hpc := by simpa using hp
  obtain ⟨θ, hθ, -, hexec⟩ := (only_common_blocks hc).1 _ _ _ _ hpc (.inr rfl)
  exact ⟨c, θ, hpc, hθ, hexec⟩

end Runtime

end Alterstack
