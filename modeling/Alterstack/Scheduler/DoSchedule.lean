/-
  Alterstack.Scheduler.DoSchedule — `do_schedule` of a `Task` never sleeps.

  `get_next_task`, the check for Running and the check for Waiting read
  `m_state` at three different moments, and a releaser may store Running
  between any two of them.  The first read decides: what is Waiting or Finished
  there gets the native task, and what is Running there is Running at the two
  other reads, because only the executing thread stores anything else.

  One call is a machine of its own: the executing thread takes the steps of
  `Alterstack.Scheduler.Code`, and all that the other threads do between two of
  them is one step to any state that they may leave behind (`Interferes`).

  Main results:
    * `scheduleStep_cases` — what one step of the call does;
    * `never_sleeps` — no call waits on `native_futex`, and every pass of its
      loop finds a task or returns with the task Running.
-/
import Alterstack.Scheduler.Frames
import Alterstack.Scheduler.Exclusive

namespace Alterstack

namespace Scheduler

open Lib (Machine)
open OsThread

variable {Θ T A : Type*}

/-! ## §1. One call among other threads. -/

/-- The points of one pass of the loop, in the order of the source. -/
def SchedPc.rank : SchedPc Θ T → ℕ
  | .native => 0
  | .queue => 1
  | .currentState _ => 2
  | .running => 3
  | .waiting => 4
  | .futex => 5

/-- The other threads have brought `s` to `u`: the thread `θ` has not moved,
and the state of `t` is as it was or has become Running. -/
structure Interferes (θ : Θ) (t : T) (s u : State Θ T A) : Prop where
  exec : u.exec θ = s.exec θ
  pc : u.pc (s.exec θ) = s.pc (s.exec θ)
  state : (u.task (.unbound t)).state = (s.task (.unbound t)).state ∨
    (u.task (.unbound t)).state = .running

/-- A step of the executing thread, or what the others have done meanwhile. -/
inductive CallLabel (Θ T A : Type*) where
  | own (choice : Choice T A)
  | others (u : State Θ T A)

/-- The side condition of a call of `do_schedule(t)` on `θ`. -/
def OthersInterfere (θ : Θ) (t : T) (s : State Θ T A) : CallLabel Θ T A → Prop
  | .own _ => True
  | .others u => Interferes θ t s u

variable [DecidableEq Θ] [DecidableEq T] [DecidableEq A]

/-- A step of the call: the steps of the thread while it is in `do_schedule`. -/
def callStep (bg : Θ → Bool) (θ : Θ) (s : State Θ T A) :
    CallLabel Θ T A → Option (State Θ T A)
  | .own choice =>
      match s.pc (s.exec θ) with
      | .schedule _ _ _ => step bg s (θ, choice)
      | _ => none
  | .others u => some u

/-- `do_schedule(t)`, called from `ret` on the thread `θ` in any state. -/
def doSchedule (bg : Θ → Bool) (θ : Θ) (ret : SchedRet Θ T A) (t : T) :
    Machine (State Θ T A) (CallLabel Θ T A) where
  init := fun s =>
    s.pc (s.exec θ) = .schedule ret (.unbound t) (nextTaskPc bg θ (.unbound t))
  step := callStep bg θ

variable {bg : Θ → Bool} {s s' : State Θ T A} {θ : Θ} {x : TaskId Θ T} {t : T}
  {ret : SchedRet Θ T A} {pc : SchedPc Θ T} {choice : Choice T A}

/-! ## §2. One step of the call. -/

/-- Where a call of an unbound task may be, `state` being its `m_state`: past
the read of `current_state` only if that has read Running. -/
def SchedPc.Fine (state : TaskState) : SchedPc Θ T → Prop
  | .running => state = .running
  | .waiting | .futex => False
  | _ => True

/-- What a step from `pc` makes of a call of the task `t` on the stack `x`. -/
inductive CallStep (ret : SchedRet Θ T A) (t : T) (pc : SchedPc Θ T) (s s' : State Θ T A)
    (x : TaskId Θ T) : Prop
  /-- on to a later point of the same pass -/
  | goesOn (pc' : SchedPc Θ T) (hpc : s'.pc x = .schedule ret (.unbound t) pc')
      (hrank : pc.rank < pc'.rank) (hfine : pc'.Fine (s'.task (.unbound t)).state)
  /-- out of the loop with a task to switch to -/
  | found (nextTask : TaskId Θ T) (hpc : s'.pc x = .switchTo ret nextTask)
  /-- out of `do_schedule` with the result false -/
  | returned (hrunning : (s.task (.unbound t)).state = .running)
      (h : s' = scheduleReturn s x ret)

omit [DecidableEq A] in
/-- The accesses of the call, the look into the queue apart. -/
theorem scheduleStep_cases (hfine : pc.Fine (s.task (.unbound t)).state)
    (h : scheduleStep bg s θ x ret (.unbound t) pc = some s') : CallStep ret t pc s s' x := by
  cases pc with
  | native =>
      injection h with h
      subst h
      by_cases hnative : (s.task (.native θ)).state = .running
      · exact .goesOn (.currentState (some (.native θ))) (by simp [State.setPc, hnative])
          (by simp [SchedPc.rank]) trivial
      · exact .goesOn .queue (by simp [State.setPc, hnative]) (by simp [SchedPc.rank]) trivial
  | queue => cases h
  | currentState nextTask =>
      cases nextTask with
      | some nextTask =>
          injection h with h
          subst h
          exact .found nextTask (by simp [State.setPc])
      | none =>
          injection h with h
          subst h
          by_cases hstate : (s.task (.unbound t)).state = .finished ∨
              (s.task (.unbound t)).state = .waiting
          · exact .found (.native θ) (by simp [State.setPc, hstate])
          · -- the only value left is Running
            refine .goesOn .running (by simp [State.setPc, hstate]) (by simp [SchedPc.rank]) ?_
            show (s.task (.unbound t)).state = .running
            cases hrunning : (s.task (.unbound t)).state with
            | running => rfl
            | waiting => exact absurd (.inr hrunning) hstate
            | finished => exact absurd (.inl hrunning) hstate
  | running =>
      have hrunning : (s.task (.unbound t)).state = .running := hfine
      simp only [scheduleStep, hrunning, if_true] at h
      injection h with h
      exact .returned hrunning h.symm
  | waiting => exact hfine.elim
  | futex => exact hfine.elim

omit [DecidableEq A] in
/-- The look into the queue leads to the read of `current_state`. -/
theorem pickStep_cases {u : Option T} (h : pickStep s x ret (.unbound t) u = some s') :
    CallStep ret t .queue s s' x := by
  cases u with
  | none =>
      injection h with h
      subst h
      exact .goesOn (.currentState none) (by simp [State.setPc, TaskId.isThreadBound])
        (by simp [SchedPc.rank]) trivial
  | some u =>
      simp only [pickStep] at h
      split at h
      next =>
        injection h with h
        subst h
        exact .goesOn (.currentState (some (.unbound u)))
          (by simp [State.setPc, TaskId.isThreadBound]) (by simp [SchedPc.rank]) trivial
      next => cases h

theorem step_schedule_cases (hpc : s.pc (s.exec θ) = .schedule ret (.unbound t) pc)
    (hfine : pc.Fine (s.task (.unbound t)).state) (h : step bg s (θ, choice) = some s') :
    CallStep ret t pc s s' (s.exec θ) := by
  cases choice with
  | go spurious =>
      simp only [step, hpc, goStep] at h
      exact scheduleStep_cases hfine h
  | pick u =>
      simp only [step, hpc] at h
      cases pc with
      | queue => exact pickStep_cases h
      | _ => cases h
  | act action =>
      simp only [step, hpc] at h
      cases h

/-- A call is never stuck: an empty queue is as good as any. -/
theorem step_schedule_enabled (hpc : s.pc (s.exec θ) = .schedule ret (.unbound t) pc) :
    ∃ choice s', step bg s (θ, choice) = some s' := by
  cases pc with
  | queue => exact ⟨.pick none, _, by simp only [step, hpc]; rfl⟩
  | running =>
      refine ⟨.go false, ?_⟩
      simp only [step, hpc, goStep, scheduleStep]
      split
      · exact ⟨_, rfl⟩
      · exact ⟨_, rfl⟩
  | currentState nextTask =>
      cases nextTask with
      | none => exact ⟨.go false, _, by simp only [step, hpc]; rfl⟩
      | some nextTask => exact ⟨.go false, _, by simp only [step, hpc]; rfl⟩
  | _ => exact ⟨.go false, _, by simp only [step, hpc]; rfl⟩

/-- The thread stays on the stack while it is in the call. -/
theorem step_schedule_exec (hpc : s.pc (s.exec θ) = .schedule ret (.unbound t) pc)
    (h : step bg s (θ, choice) = some s') : s'.exec = s.exec := by
  rcases step_cases h with ⟨p', hin⟩ | ⟨ret', new, hsw, -⟩ | ⟨action, p', -, hact⟩
  · exact hin.exec
  · rw [hpc] at hsw
    cases hsw
  · exact hact.exec

/-! ## §3. The whole call. -/

omit [DecidableEq Θ] [DecidableEq T] [DecidableEq A] in
/-- What the others do keeps a call where it is, and fine. -/
theorem Interferes.fine {u : State Θ T A} (h : Interferes θ t s u)
    (hfine : pc.Fine (s.task (.unbound t)).state) : pc.Fine (u.task (.unbound t)).state := by
  cases pc with
  | running =>
      have hrunning : (s.task (.unbound t)).state = .running := hfine
      show (u.task (.unbound t)).state = .running
      rcases h.state with hsame | h
      · exact hsame.trans hrunning
      · exact h
  | waiting => exact hfine.elim
  | futex => exact hfine.elim
  | _ => trivial

/-- How many steps the executing thread has taken in the call. -/
def ownSteps (_ : State Θ T A) : CallLabel Θ T A → ℕ → ℕ
  | .own _, n => n + 1
  | .others _, n => n

/-- The call and the number of its steps so far. -/
abbrev countedCall (bg : Θ → Bool) (θ : Θ) (ret : SchedRet Θ T A) (t : T) :
    Machine (State Θ T A × ℕ) (CallLabel Θ T A) :=
  (doSchedule bg θ ret t).withHistory (fun _ => 0) ownSteps

/-- The call is at a fine point and has passed every earlier one at most once,
or it has ended. -/
inductive CallInv (θ : Θ) (ret : SchedRet Θ T A) (t : T) (s : State Θ T A) (n : ℕ) : Prop
  | inside (pc : SchedPc Θ T) (hpc : s.pc (s.exec θ) = .schedule ret (.unbound t) pc)
      (hfine : pc.Fine (s.task (.unbound t)).state) (hn : n ≤ pc.rank)
  | ended (hpc : ∀ ret' me pc, s.pc (s.exec θ) ≠ .schedule ret' me pc) (hn : n ≤ 4)

omit [DecidableEq Θ] [DecidableEq T] [DecidableEq A] in
theorem SchedPc.Fine.rank_le {state : TaskState} (hfine : pc.Fine state) : pc.rank ≤ 3 := by
  cases pc with
  | waiting => exact hfine.elim
  | futex => exact hfine.elim
  | _ => simp [SchedPc.rank]

theorem CallInv.own {n : ℕ} (hpc : s.pc (s.exec θ) = .schedule ret (.unbound t) pc)
    (hfine : pc.Fine (s.task (.unbound t)).state) (hn : n ≤ pc.rank)
    (h : step bg s (θ, choice) = some s') : CallInv θ ret t s' (n + 1) := by
  have hexec : s'.exec = s.exec := step_schedule_exec hpc h
  have hle := hfine.rank_le
  cases step_schedule_cases hpc hfine h with
  | goesOn pc' hpc' hrank hfine' => exact .inside pc' (by rw [hexec, hpc']) hfine' (by omega)
  | found nextTask hpc' =>
      refine .ended (fun ret' me pc'' => ?_) (by omega)
      rw [hexec, hpc']
      nofun
  | returned hrunning h' =>
      refine .ended (fun ret' me pc'' => ?_) (by omega)
      rw [hexec, h']
      cases ret <;> simp [scheduleReturn, State.setPc, State.setLife, returnPc]

omit [DecidableEq Θ] [DecidableEq T] [DecidableEq A] in
theorem CallInv.others {n : ℕ} {u : State Θ T A} (hs : CallInv θ ret t s n)
    (h : Interferes θ t s u) : CallInv θ ret t u n := by
  cases hs with
  | inside pc hpc hfine hn => exact .inside pc (by rw [h.exec, h.pc, hpc]) (h.fine hfine) hn
  | ended hpc hn =>
      refine .ended (fun ret' me pc => ?_) hn
      rw [h.exec, h.pc]
      exact hpc ret' me pc

theorem CallInv.step {n : ℕ} {l : CallLabel Θ T A} (hs : CallInv θ ret t s n)
    (hok : OthersInterfere θ t s l) (h : callStep bg θ s l = some s') :
    CallInv θ ret t s' (ownSteps s l n) := by
  cases l with
  | own choice =>
      simp only [callStep] at h
      split at h
      next ret' me pc' hpc' =>
        cases hs with
        | inside pc hpc hfine hn => exact .own hpc hfine hn h
        | ended hpc hn => exact absurd hpc' (hpc ret' me pc')
      next => cases h
  | others u =>
      injection h with h
      subst h
      exact hs.others hok

theorem callInv_reach {σ : State Θ T A × ℕ}
    (h : (countedCall bg θ ret t).Reach (fun σ => OthersInterfere θ t σ.1) σ) :
    CallInv θ ret t σ.1 σ.2 := by
  refine h.invariant (I := fun σ => CallInv θ ret t σ.1 σ.2) ?init ?step
  case init =>
    intro σ ⟨hpc, hn⟩
    refine .inside _ hpc ?_ (hn ▸ Nat.zero_le _)
    -- the head of the loop is the look at the native task or into the queue
    cases hbg : bg θ <;> simp [nextTaskPc, TaskId.isThreadBound, hbg, SchedPc.Fine]
  case step =>
    intro σ l σ' hs hok hstep
    obtain ⟨hcall, hn⟩ := Machine.withHistory_step.mp hstep
    rw [← hn]
    exact hs.step hok hcall

/-- **`do_schedule` of a `Task` never reaches `native_futex.wait()`.**  At
every point of the call the thread can go on, and its step leads to a later
point of the same pass, out of the loop with a task, or back to the caller with
the task Running; so the call ends after at most four steps of its own. -/
theorem never_sleeps {n : ℕ}
    (h : (countedCall bg θ ret t).Reach (fun σ => OthersInterfere θ t σ.1) (s, n)) :
    n ≤ 4 ∧ ∀ ret' me pc, s.pc (s.exec θ) = .schedule ret' me pc →
      pc ≠ .waiting ∧ pc ≠ .futex ∧ (∃ choice s', step bg s (θ, choice) = some s') ∧
      ∀ choice s', step bg s (θ, choice) = some s' → CallStep ret t pc s s' (s.exec θ) := by
  cases callInv_reach h with
  | inside pc hpc hfine hn =>
      dsimp only at hpc hfine hn
      have hle := hfine.rank_le
      refine ⟨by omega, fun ret' me pc' hpc' => ?_⟩
      rw [hpc] at hpc'
      cases hpc'
      refine ⟨?_, ?_, step_schedule_enabled hpc, fun choice s' hstep =>
        step_schedule_cases hpc hfine hstep⟩
      · rintro rfl
        exact hfine
      · rintro rfl
        exact hfine
  | ended hpc hn => exact ⟨hn, fun ret' me pc hpc' => absurd hpc' (hpc ret' me pc)⟩

omit [DecidableEq Θ] [DecidableEq T] [DecidableEq A] in
theorem interferes_iff {u : State Θ T A} : Interferes θ t s u ↔
    u.exec θ = s.exec θ ∧ u.pc (s.exec θ) = s.pc (s.exec θ) ∧
      ((u.task (.unbound t)).state = (s.task (.unbound t)).state ∨
        (u.task (.unbound t)).state = .running) :=
  ⟨fun h => ⟨h.exec, h.pc, h.state⟩, fun h => ⟨h.1, h.2.1, h.2.2⟩⟩

instance (l : CallLabel Θ T A) : Decidable (OthersInterfere θ t s l) :=
  match l with
  | .own _ => isTrue trivial
  | .others _ => decidable_of_iff _ interferes_iff.symm

/-- The task and the native task of its thread wait. -/
def bothWaiting : State OsThread Unit Unit :=
  { initial with
    task := fun _ => { state := .waiting }
    exec := fun _ => .unbound ()
    pc := fun _ => .schedule (.wait (.user ())) (.unbound ()) .native }

/-- A releaser has made the task Running just before `current_state` is read. -/
def releasedMeanwhile : State OsThread Unit Unit :=
  { bothWaiting with
    task := fun _ => {}
    pc := fun _ => .schedule (.wait (.user ())) (.unbound ()) (.currentState none) }

theorem never_sleeps_releasedMeanwhile : ∃ s : State OsThread Unit Unit,
    s.pc (s.exec .main) = .schedule (.wait (.user ())) (.unbound ()) .running ∧
      ∃ choice s', step (fun _ => false) s (main, choice) = some s' := by
  obtain ⟨⟨s, n⟩, hs, hp⟩ := Machine.exists_reach_of_replayOk
    (countedCall (fun _ => false) main (.wait (.user ())) ())
    (fun σ => OthersInterfere main () σ.1)
    [.own (.go false), .own (.pick none), .others releasedMeanwhile, .own (.go false)]
    (fun σ => decide (σ.1.pc (σ.1.exec main) =
      .schedule (.wait (.user ())) (.unbound ()) .running)) (s := (bothWaiting, 0))
    ⟨rfl, rfl⟩ (by decide +kernel)
  have hpc : s.pc (s.exec main) = .schedule (.wait (.user ())) (.unbound ()) .running := by
    simpa using hp
  obtain ⟨-, -, henabled, -⟩ := (never_sleeps hs).2 _ _ _ hpc
  exact ⟨s, hpc, henabled⟩

end Scheduler

end Alterstack
