/-
  Alterstack.Background.Shutdown — `~BgRunner` returns.

  The measure counts what `~BgRunner` has still to do: the cores it has not
  destroyed yet, and for the present core the accesses that are left to
  `stop_thread()` and to the thread function on its way out.  The polling loop
  of `ensure_thread_stopped` does not make it smaller, but while the loop goes
  on the thread is never blocked (`not_blocked_of_woken`), and every step of the
  thread does.

  Main results:
    * `dtorStep_measure`, `threadStep_rank` — the steps of the two parties;
    * `destructor_returns` — if every call of `schedule()` returns and the
      threads are scheduled fairly, `~BgRunner` returns, with all OS threads
      ended and nobody counted as asleep.
-/
import Alterstack.Background.Stopping

namespace Alterstack

namespace Stopping

open Lib (Machine)
open Lib.Machine (anyStep Execution WeaklyFair eventually_of_measure stays_of_succ
  weaklyFair_of_disabled exists_execution_of_replayOk)
open Futex

variable {E : Type*} [DecidableEq E] {n : ℕ}

/-! ## §1. The measure. -/

/-- The accesses that are left to a thread function that has been asked to stop. -/
def rank : ThreadPc → ℕ
  | .schedule => 13
  | .stopAfterSchedule => 12
  | .addSleep => 11
  | .wait .load => 10
  | .wait .exchange => 9
  | .wait .addCounter => 8
  | .wait .futexWait => 7
  | .wait .blocked => 6
  | .wait .subCounter => 5
  | .subSleep => 4
  | .stopAfterWait => 3
  | .guard => 2
  | .returned => 1
  | .ended => 0

theorem rank_le (p : ThreadPc) : rank p ≤ 13 := by
  cases p with
  | wait w => cases w <;> simp [rank]
  | _ => simp [rank]

theorem rank_injective {p q : ThreadPc} (h : rank p = rank q) : p = q := by
  cases p with
  | wait w =>
      cases q with
      | wait v => cases w <;> cases v <;> first | rfl | simp [rank] at h
      | _ => cases w <;> simp [rank] at h
  | _ =>
      cases q with
      | wait v => cases v <;> simp [rank] at h
      | _ => first | rfl | simp [rank] at h

/-- The accesses that are left to a call of `wake_up()`. -/
def left : NotifyPc → ℕ
  | .load => 4
  | .store => 3
  | .loadCounter => 2
  | .futexWake => 1

theorem left_pos (pc : NotifyPc) : 0 < left pc := by cases pc <;> simp [left]

theorem left_le (pc : NotifyPc) : left pc ≤ 4 := by cases pc <;> simp [left]

/-- What is left in `ensure_thread_stopped()`; the present call of `wake_up()`
counts only once the loop is about to end. -/
def cost (b : BgThread) (left : ℕ) : ℕ :=
  10 * rank b.pc + 2 + if b.threadStopped then left else 0

def measure (s : State E n) : ℕ :=
  match s.dtor with
  | .notEntered => 0
  | .requestStop c => 300 * n + (n - c)
  | .stopThread c => 300 * (n - 1 - c) + 250
  | .wakeUp c pc => 300 * (n - 1 - c) + 200 + left pc
  | .ensureLoad c => 300 * (n - 1 - c) + cost (s.cores c) 0
  | .ensureWakeUp c pc => 300 * (n - 1 - c) + cost (s.cores c) (left pc)
  | .join c => 300 * (n - 1 - c) + 10 * rank (s.cores c).pc + 1
  | .done => 0

theorem cost_le (b : BgThread) (k : ℕ) (hk : k ≤ 4) : cost b k ≤ 136 := by
  have := rank_le b.pc
  unfold cost
  split <;> omega

/-! ## §2. The steps of the parties. -/

section Core

variable {b b' : BgThread} {k k' : UInt32} {more : Bool} {pc pc' : NotifyPc}

/-- **A step of a thread that has been asked to stop** leads further out, but
for `schedule()` going on. -/
theorem threadStep_rank (hstop : b.stopRequested = true)
    (h : threadStep more k b = some (k', b')) :
    rank b'.pc < rank b.pc ∨ (b.pc = .schedule ∧ b' = b) := by
  cases hpc : b.pc with
  | schedule =>
      simp only [threadStep, hpc] at h
      injection h with h
      injection h with _ h
      subst h
      cases more with
      | true => exact .inr ⟨rfl, by rw [if_pos rfl, ← hpc]⟩
      | false => exact .inl (by simp [rank])
  | stopAfterSchedule | stopAfterWait =>
      simp only [threadStep, hpc, hstop, if_true] at h
      injection h with h
      injection h with _ h
      subst h
      exact .inl (by simp [rank])
  | wait w =>
      simp only [threadStep, hpc] at h
      obtain ⟨⟨f, r⟩, hnext, h⟩ := Option.map_eq_some_iff.mp h
      injection h with _ h
      subst h
      refine .inl ?_
      cases w <;>
        simp only [Futex.waitStep, Option.some.injEq, Prod.mk.injEq, reduceCtorEq] at hnext
        <;> obtain ⟨-, rfl⟩ := hnext
      · by_cases hw : b.taskAvalableFutex.workAvalable = 0 <;> simp [hw, rank]
      · by_cases hw : b.taskAvalableFutex.workAvalable = 0 <;> simp [hw, rank]
      · simp [rank]
      · by_cases hw : b.taskAvalableFutex.workAvalable = 0 <;> simp [hw, rank]
      · simp [rank]
  | addSleep | subSleep | guard | returned =>
      simp only [threadStep, hpc] at h
      injection h with h
      injection h with _ h
      subst h
      exact .inl (by simp [rank])
  | ended =>
      simp only [threadStep, hpc] at h
      cases h

/-- The thread can go on unless it is blocked or has ended. -/
theorem threadStep_enabled (hblocked : b.pc ≠ .wait .blocked) (hended : b.pc ≠ .ended) :
    threadStep false k b ≠ none := by
  cases hpc : b.pc with
  | wait w => cases w <;> simp_all [threadStep, Futex.waitStep]
  | ended => exact absurd hpc hended
  | _ => simp [threadStep, hpc]

theorem rank_woken_le (p : ThreadPc) : rank p.woken ≤ rank p := by
  unfold ThreadPc.woken
  split <;> simp [rank]

theorem wakeUp_rank : rank (wakeUp b pc).1.pc ≤ rank b.pc := by
  simp only [wakeUp]
  split
  · exact rank_woken_le b.pc
  · exact le_rfl

theorem wakeUp_threadStopped : (wakeUp b pc).1.threadStopped = b.threadStopped := rfl

theorem wakeUp_left (h : (wakeUp b pc).2 = some pc') : left pc' < left pc := by
  simp only [wakeUp] at h
  cases pc with
  | load =>
      simp only [Futex.notifyStep, Option.some.injEq] at h
      subst h
      split <;> simp [left]
  | store =>
      simp only [Futex.notifyStep, Option.some.injEq] at h
      subst h
      simp [left]
  | loadCounter =>
      simp only [Futex.notifyStep] at h
      split at h
      · cases h
        simp [left]
      · cases h
  | futexWake => cases h

end Core

variable {s t : State E n} {c : Fin n}

omit [DecidableEq E] in
theorem measure_nextRequest (core : Fin n) (h : s.dtor = nextRequest core) :
    measure s ≤ 300 * n + (n - 1 - core) := by
  have hcore := core.isLt
  unfold nextRequest at h
  split at h <;> simp only [measure, h] <;> omega

omit [DecidableEq E] in
theorem measure_nextThread (core : Fin n) (h : s.dtor = nextThread core) :
    measure s ≤ 300 * (n - 1 - core) := by
  have hcore := core.isLt
  unfold nextThread at h
  split at h <;> simp only [measure, h] <;> omega

omit [DecidableEq E] in
/-- **A step of `~BgRunner`** leads further, but in the loop that polls a thread
which has not stopped. -/
theorem dtorStep_measure (h : dtorStep s = some t) :
    measure t < measure s ∨ ∃ c, s.dtor.Ensuring c ∧ t.dtor.Ensuring c ∧
      (s.cores c).threadStopped = false ∧ measure t ≤ measure s := by
  cases hd : s.dtor with
  | notEntered | done =>
      simp only [dtorStep, hd] at h
      cases h
  | requestStop core =>
      simp only [dtorStep, hd] at h
      injection h with h
      have hle := measure_nextRequest (s := t) core (by rw [← h])
      have hcore := core.isLt
      refine .inl (Nat.lt_of_le_of_lt hle ?_)
      simp only [measure, hd]
      omega
  | stopThread core =>
      simp only [dtorStep, hd] at h
      injection h with h
      subst h
      refine .inl ?_
      simp only [measure, hd, left]
      omega
  | wakeUp core pc =>
      simp only [dtorStep, hd] at h
      injection h with h
      subst h
      refine .inl ?_
      have hpos := left_pos pc
      cases hnext : (wakeUp (s.cores core) pc).2 with
      | some pc' =>
          have hleft := wakeUp_left hnext
          simp only [measure, hd]
          omega
      | none =>
          have hcost := cost_le (wakeUp (s.cores core) pc).1 0 (by omega)
          simp only [measure, hd, State.setCore, Function.update_self]
          omega
  | ensureLoad core =>
      simp only [dtorStep, hd] at h
      injection h with h
      subst h
      cases hstopped : (s.cores core).threadStopped with
      | true =>
          refine .inl ?_
          simp [measure, hd, hstopped, cost]
          omega
      | false =>
          refine .inr ⟨core, .inl rfl, .inr ⟨.load, rfl⟩, hstopped, ?_⟩
          simp [measure, hd, hstopped, cost]
  | ensureWakeUp core pc =>
      simp only [dtorStep, hd] at h
      injection h with h
      subst h
      have hrank : rank (wakeUp (s.cores core) pc).1.pc ≤ rank (s.cores core).pc := wakeUp_rank
      have hstop : (wakeUp (s.cores core) pc).1.threadStopped = (s.cores core).threadStopped :=
        wakeUp_threadStopped
      have hpos := left_pos pc
      cases hstopped : (s.cores core).threadStopped with
      | true =>
          refine .inl ?_
          cases hnext : (wakeUp (s.cores core) pc).2 with
          | some pc' =>
              have hleft := wakeUp_left hnext
              simp [measure, hd, State.setCore, cost, hstop, hstopped]
              omega
          | none =>
              simp [measure, hd, State.setCore, cost, hstop, hstopped]
              omega
      | false =>
          refine .inr ⟨core, .inr ⟨pc, rfl⟩, ?_, hstopped, ?_⟩
          · cases (wakeUp (s.cores core) pc).2 with
            | some pc' => exact .inr ⟨pc', rfl⟩
            | none => exact .inl rfl
          · cases (wakeUp (s.cores core) pc).2 <;>
              simp [measure, hd, State.setCore, cost, hstop, hstopped] <;> omega
  | join core =>
      simp only [dtorStep, hd] at h
      split at h
      next =>
        injection h with h
        have hle := measure_nextThread (s := t) core (by rw [← h])
        refine .inl (Nat.lt_of_le_of_lt hle ?_)
        simp only [measure, hd]
        omega
      next => cases h

/-- The other parties leave `~BgRunner` where it is. -/
theorem step_dtor_same {l : Label E n} (hentered : s.dtor ≠ .notEntered) (hl : l ≠ .dtor)
    (h : step s l = some t) : t.dtor = s.dtor := by
  cases l with
  | thread c more =>
      obtain ⟨_, -, rfl⟩ := Option.map_eq_some_iff.mp h
      rfl
  | wakeUp e c =>
      simp only [step] at h
      split at h
      next =>
        injection h with h
        rw [← h]
      next => cases h
  | notify e =>
      simp only [step] at h
      split at h
      next => cases h
      next =>
        injection h with h
        rw [← h]
        rfl
  | destroy => simp [step, hentered] at h
  | dtor => exact absurd rfl hl
  | other =>
      injection h with h
      rw [h]

/-- What a step of another party does to a BgThread that has been asked to
stop: its thread goes on, or somebody wakes it, or nothing. -/
theorem step_core {l : Label E n} (hl : l ≠ .dtor) (h : step s l = some t) :
    (∃ more k, l = .thread c more ∧
      threadStep more s.sleepCount (s.cores c) = some (k, t.cores c)) ∨
    ((∀ more, l ≠ .thread c more) ∧
      (t.cores c = s.cores c ∨ ∃ pc, t.cores c = (wakeUp (s.cores c) pc).1)) := by
  cases l with
  | thread c' more =>
      obtain ⟨⟨k, b⟩, hnext, rfl⟩ := Option.map_eq_some_iff.mp h
      by_cases hc : c' = c
      · subst hc
        exact .inl ⟨more, k, rfl, by simpa [State.setCore] using hnext⟩
      · refine .inr ⟨fun more' hl' => ?_, .inl (by simp [State.setCore, Ne.symm hc])⟩
        injection hl' with hc'
        exact hc hc'
  | wakeUp e c' =>
      simp only [step] at h
      split at h
      next =>
        injection h with h
        subst h
        exact .inr ⟨fun _ hl' => (by cases hl'), .inl rfl⟩
      next => cases h
  | notify e =>
      simp only [step] at h
      split at h
      next => cases h
      next c' pc _ =>
        injection h with h
        subst h
        by_cases hc : c' = c
        · subst hc
          exact .inr ⟨fun _ hl' => (by cases hl'), .inr ⟨pc, by simp [State.setCore]⟩⟩
        · exact .inr ⟨fun _ hl' => (by cases hl'), .inl (by simp [State.setCore, Ne.symm hc])⟩
  | destroy =>
      simp only [step] at h
      split at h
      next =>
        injection h with h
        subst h
        exact .inr ⟨fun _ hl' => (by cases hl'), .inl rfl⟩
      next => cases h
  | dtor => exact absurd rfl hl
  | other =>
      injection h with h
      subst h
      exact .inr ⟨fun _ hl' => (by cases hl'), .inl rfl⟩

/-- A step of another party brings a thread that has been asked to stop no
further from its end. -/
theorem step_rank {l : Label E n} (hl : l ≠ .dtor) (hstop : (s.cores c).stopRequested = true)
    (h : step s l = some t) :
    rank (t.cores c).pc < rank (s.cores c).pc ∨
      ((t.cores c).pc = (s.cores c).pc ∧ (t.cores c).threadStopped = (s.cores c).threadStopped ∧
        ((s.cores c).pc ≠ .schedule → ∀ more, l ≠ .thread c more)) := by
  rcases step_core (c := c) hl h with ⟨more, k, rfl, hnext⟩ | ⟨hnot, hsame | ⟨pc, hwake⟩⟩
  · rcases threadStep_rank hstop hnext with hlt | ⟨hschedule, hsame⟩
    · exact .inl hlt
    · exact .inr ⟨by rw [hsame], by rw [hsame], fun hne => absurd hschedule hne⟩
  · exact .inr ⟨by rw [hsame], by rw [hsame], fun _ => hnot⟩
  · rw [hwake]
    have hle : rank (wakeUp (s.cores c) pc).1.pc ≤ rank (s.cores c).pc := wakeUp_rank
    rcases Nat.lt_or_eq_of_le hle with hlt | heq
    · exact .inl hlt
    · exact .inr ⟨rank_injective heq, wakeUp_threadStopped, fun _ => hnot⟩

/-! ## §3. The measure rests only while the loop polls. -/

/-- `~BgRunner` waits for the thread of core `c` to stop. -/
def DtorPc.Awaiting (c : Fin n) (d : DtorPc n) : Prop := d.Ensuring c ∨ d = .join c

/-- It waits for one thread at a time. -/
theorem awaiting_unique {c c' : Fin n} {d : DtorPc n} (h : d.Awaiting c) (h' : d.Awaiting c') :
    c = c' := by
  rcases h with (rfl | ⟨pc, rfl⟩) | rfl <;> rcases h' with (h' | ⟨pc', h'⟩) | h' <;> cases h' <;>
    rfl

omit [DecidableEq E] in
theorem measure_awaiting (hd : s.dtor.Awaiting c) :
    ∃ k ≤ 6, measure s = 300 * (n - 1 - c) + 10 * rank (s.cores c).pc + k := by
  rcases hd with (hd | ⟨pc, hd⟩) | hd
  · exact ⟨2, by omega, by simp [measure, hd, cost, Nat.add_assoc]⟩
  · have hleft := left_le pc
    cases hstopped : (s.cores c).threadStopped with
    | true => exact ⟨2 + left pc, by omega, by simp [measure, hd, cost, hstopped, Nat.add_assoc]⟩
    | false => exact ⟨2, by omega, by simp [measure, hd, cost, hstopped, Nat.add_assoc]⟩
  · exact ⟨1, by omega, by simp [measure, hd]⟩

omit [DecidableEq E] in
theorem awaiting_or (d : DtorPc n) : (∃ c, d.Awaiting c) ∨ ∀ s t : State E n,
    s.dtor = d → t.dtor = d → measure s = measure t := by
  cases d with
  | ensureLoad c => exact .inl ⟨c, .inl (.inl rfl)⟩
  | ensureWakeUp c pc => exact .inl ⟨c, .inl (.inr ⟨pc, rfl⟩)⟩
  | join c => exact .inl ⟨c, .inr rfl⟩
  | _ => exact .inr fun s t hs ht => by simp [measure, hs, ht]

omit [DecidableEq E] in
theorem stopRequested_of_awaiting (hs : Inv s) (hd : s.dtor.Awaiting c) :
    (s.cores c).stopRequested = true := by
  refine (hs.cores c).requested.mpr ?_
  rcases hd with (hd | ⟨pc, hd⟩) | hd <;> simp [hd, DtorPc.phase]

omit [DecidableEq E] in
theorem measure_eq_of_same (hd : t.dtor = s.dtor) (hc : s.dtor.Awaiting c)
    (hpc : (t.cores c).pc = (s.cores c).pc)
    (hstopped : (t.cores c).threadStopped = (s.cores c).threadStopped) :
    measure t = measure s := by
  rcases hc with (hc | ⟨pc, hc⟩) | hc <;> simp [measure, hd, hc, cost, hpc, hstopped]

/-- No step of any party makes the measure larger. -/
theorem step_measure {l : Label E n} (hs : Inv s) (hentered : s.dtor ≠ .notEntered)
    (h : step s l = some t) : measure t ≤ measure s := by
  by_cases hl : l = .dtor
  · subst hl
    rcases dtorStep_measure h with hlt | ⟨c, -, -, -, hle⟩
    · exact Nat.le_of_lt hlt
    · exact hle
  · have hd := step_dtor_same hentered hl h
    rcases awaiting_or (E := E) s.dtor with ⟨c, hc⟩ | hsame
    · rcases step_rank hl (stopRequested_of_awaiting hs hc) h with hlt | ⟨hpc, hstopped, -⟩
      · obtain ⟨k, hk, hmeasure⟩ := measure_awaiting hc
        obtain ⟨k', hk', hmeasure'⟩ := measure_awaiting (s := t) (by rw [hd]; exact hc)
        omega
      · exact Nat.le_of_eq (measure_eq_of_same hd hc hpc hstopped)
    · exact Nat.le_of_eq (hsame t s hd rfl)

/-- When the measure rests, `~BgRunner` has made no step but in the polling
loop, and the thread it waits for none but in `schedule()`. -/
theorem step_rests {l : Label E n} (hs : Inv s) (hentered : s.dtor ≠ .notEntered)
    (h : step s l = some t) (hrest : measure t = measure s) :
    (l ≠ .dtor ∧ t.dtor = s.dtor ∨ ∃ c, s.dtor.Ensuring c ∧ t.dtor.Ensuring c ∧
      (s.cores c).threadStopped = false) ∧
    ∀ c, s.dtor.Awaiting c → (t.cores c).pc = (s.cores c).pc ∧
      ((s.cores c).pc ≠ .schedule → ∀ more, l ≠ .thread c more) := by
  by_cases hl : l = .dtor
  · subst hl
    rcases dtorStep_measure h with hlt | ⟨c, hc, hc', hstopped, -⟩
    · omega
    · refine ⟨.inr ⟨c, hc, hc', hstopped⟩, fun c₁ hc₁ => ⟨?_, fun _ _ hl => by cases hl⟩⟩
      obtain rfl : c₁ = c := awaiting_unique hc₁ (.inl hc)
      obtain ⟨k, hk, hmeasure⟩ := measure_awaiting hc₁
      obtain ⟨k', hk', hmeasure'⟩ := measure_awaiting (s := t) (.inl hc')
      exact rank_injective (by omega)
  · have hd := step_dtor_same hentered hl h
    refine ⟨.inl ⟨hl, hd⟩, fun c hc => ?_⟩
    rcases step_rank hl (stopRequested_of_awaiting hs hc) h with hlt | ⟨hpc, -, hnot⟩
    · obtain ⟨k, hk, hmeasure⟩ := measure_awaiting hc
      obtain ⟨k', hk', hmeasure'⟩ := measure_awaiting (s := t) (by rw [hd]; exact hc)
      omega
    · exact ⟨hpc, hnot⟩

omit [DecidableEq E] in
theorem dtorStep_enabled (hentered : s.dtor ≠ .notEntered) (hdone : s.dtor ≠ .done)
    (hjoin : ∀ c, s.dtor = .join c → (s.cores c).pc = .ended) : dtorStep s ≠ none := by
  cases hd : s.dtor with
  | notEntered => exact absurd hd hentered
  | done => exact absurd hd hdone
  | join c => simp [dtorStep, hd, hjoin c hd]
  | _ => simp [dtorStep, hd]

theorem step_entered {l : Label E n} (hentered : s.dtor ≠ .notEntered) (h : step s l = some t) :
    t.dtor ≠ .notEntered := by
  by_cases hl : l = .dtor
  · subst hl
    simp only [step, dtorStep] at h
    cases hd : s.dtor with
    | notEntered => exact absurd hd hentered
    | requestStop core =>
        simp only [hd] at h
        injection h with h
        subst h
        simp only [nextRequest]
        split <;> simp
    | wakeUp core pc | ensureWakeUp core pc =>
        simp only [hd] at h
        injection h with h
        subst h
        split <;> simp
    | ensureLoad core =>
        simp only [hd] at h
        injection h with h
        subst h
        simp only
        split <;> simp
    | join core =>
        simp only [hd] at h
        split at h
        next =>
          injection h with h
          subst h
          simp only [nextThread]
          split <;> simp
        next => cases h
    | stopThread core =>
        simp only [hd] at h
        injection h with h
        subst h
        simp
    | done =>
        simp only [hd] at h
        cases h
  · rw [step_dtor_same hentered hl h]
    exact hentered

/-! ## §4. `~BgRunner` returns. -/

section Executions

variable {states : ℕ → State E n} {labels : ℕ → Label E n}
  (h : (machine E n).Execution anyStep states labels)

include h

theorem entered_of_le {k m : ℕ} (hk : (states k).dtor ≠ .notEntered) (hkm : k ≤ m) :
    (states m).dtor ≠ .notEntered :=
  stays_of_succ (P := fun m => (states m).dtor ≠ .notEntered) hk
    (fun m _ hm => step_entered hm (h.step m)) hkm

/-- **The measure does not rest forever**: the thread that `~BgRunner` waits
for would have to stay at one point, and it can stay nowhere. -/
theorem not_resting {a : ℕ} (hentered : (states a).dtor ≠ .notEntered)
    (hdone : ∀ b, a ≤ b → (states b).dtor ≠ .done)
    (hrest : ∀ b, a ≤ b → measure (states (b + 1)) = measure (states b))
    (hdtor : (machine E n).WeaklyFair (fun l => l = .dtor) states labels)
    (hthread : ∀ c, (machine E n).WeaklyFair (fun l => ∃ more, l = .thread c more) states labels)
    (hschedule : ∀ c k, ((states k).cores c).pc = .schedule →
      ∃ m, k ≤ m ∧ ((states m).cores c).pc ≠ .schedule) : False := by
  have hstep : ∀ b, a ≤ b → _ := fun b hab =>
    step_rests (inv_reach (h.reach b)) (entered_of_le h hentered hab) (h.step b) (hrest b hab)
  by_cases hawaits : ∃ c, (states a).dtor.Awaiting c
  · obtain ⟨c, hc⟩ := hawaits
    have hawaiting : ∀ b, a ≤ b → (states b).dtor.Awaiting c := fun b hab =>
      stays_of_succ (P := fun b => (states b).dtor.Awaiting c) hc
        (fun b hab hb => by
          rcases (hstep b hab).1 with ⟨-, hsame⟩ | ⟨c', hens, hens', -⟩
          · rw [hsame]
            exact hb
          · obtain rfl : c = c' := awaiting_unique hb (.inl hens)
            exact .inl hens') hab
    have hpc : ∀ b, a ≤ b → ((states b).cores c).pc = ((states a).cores c).pc := fun b hab =>
      stays_of_succ (P := fun b => ((states b).cores c).pc = ((states a).cores c).pc) rfl
        (fun b hab hb => ((hstep b hab).2 c (hawaiting b hab)).1.trans hb) hab
    have hnotSchedule : ((states a).cores c).pc ≠ .schedule := fun hp => by
      obtain ⟨b, hab, hb⟩ := hschedule c a hp
      exact hb ((hpc b hab).trans hp)
    by_cases hended : ((states a).cores c).pc = .ended
    · -- the thread has ended: the loop and the join go on
      obtain ⟨b, hab, hb⟩ := hdtor a fun b hab => ⟨.dtor, rfl,
        dtorStep_enabled (entered_of_le h hentered hab) (hdone b hab) fun c' hjoin => by
          obtain rfl : c = c' := awaiting_unique (hawaiting b hab) (.inr hjoin)
          exact (hpc b hab).trans hended⟩
      rcases (hstep b hab).1 with ⟨hl, -⟩ | ⟨c', hens, -, hstopped⟩
      · exact hl hb
      · obtain rfl : c = c' := awaiting_unique (hawaiting b hab) (.inl hens)
        have hflag := ((inv_reach (h.reach b)).cores c).stopped
        rw [hpc b hab, hended, hstopped] at hflag
        cases hflag
    · -- otherwise the thread itself goes on
      have hnotBlocked : ((states a).cores c).pc ≠ .wait .blocked := by
        rcases hc with hc | hc
        · exact not_blocked_of_woken (h.reach a) hc
        · have hcore := (inv_reach (h.reach a)).cores c
          have hstopped := hcore.seen (by simp [hc, DtorPc.phase])
          intro hblocked
          rw [hcore.stopped, hblocked] at hstopped
          cases hstopped
      obtain ⟨b, hab, more, hb⟩ := hthread c a fun b hab => ⟨.thread c false, ⟨false, rfl⟩, by
        have henabled := threadStep_enabled (b := (states b).cores c)
          (k := (states b).sleepCount) (by rw [hpc b hab]; exact hnotBlocked)
          (by rw [hpc b hab]; exact hended)
        simpa [machine, step] using henabled⟩
      exact ((hstep b hab).2 c (hawaiting b hab)).2 (by rw [hpc b hab]; exact hnotSchedule) more hb
  · have hsame : ∀ b, a ≤ b → (states b).dtor = (states a).dtor := fun b hab =>
      stays_of_succ (P := fun b => (states b).dtor = (states a).dtor) rfl
        (fun b hab hb => by
          rcases (hstep b hab).1 with ⟨-, hnext⟩ | ⟨c, hens, -, -⟩
          · rw [hnext, hb]
          · exact absurd ⟨c, .inl (hb ▸ hens)⟩ hawaits) hab
    obtain ⟨b, hab, hb⟩ := hdtor a fun b hab => ⟨.dtor, rfl,
      dtorStep_enabled (entered_of_le h hentered hab) (hdone b hab) fun c hjoin =>
        absurd ⟨c, .inr ((hsame b hab).symm.trans hjoin)⟩ hawaits⟩
    rcases (hstep b hab).1 with ⟨hl, -⟩ | ⟨c, hens, -, -⟩
    · exact hl hb
    · exact hawaits ⟨c, .inl (hsame b hab ▸ hens)⟩

/-- **`~BgRunner` returns.**  Suppose that every call of `schedule()` on a
BgThread returns and that the thread in `~BgRunner` and the BgThreads are
scheduled fairly.  Then from any time at which `~BgRunner` has been entered it
comes to its end, and then every OS thread has ended and `m_sleep_count` is 0. -/
theorem destructor_returns
    (hdtor : (machine E n).WeaklyFair (fun l => l = .dtor) states labels)
    (hthread : ∀ c, (machine E n).WeaklyFair (fun l => ∃ more, l = .thread c more) states labels)
    (hschedule : ∀ c k, ((states k).cores c).pc = .schedule →
      ∃ m, k ≤ m ∧ ((states m).cores c).pc ≠ .schedule)
    {k : ℕ} (hk : (states k).dtor ≠ .notEntered) :
    ∃ m, k ≤ m ∧ (states m).dtor = .done ∧ (∀ c, ((states m).cores c).pc = .ended) ∧
      (states m).sleepCount = 0 := by
  obtain ⟨m, hm⟩ := eventually_of_measure (P := fun m => (states (k + m)).dtor = .done)
    (μ := fun m => measure (states (k + m)))
    (fun m _ => step_measure (inv_reach (h.reach _))
      (entered_of_le h hk (Nat.le_add_right k m)) (h.step (k + m)))
    (fun m hall => not_resting h (a := k + m) (entered_of_le h hk (Nat.le_add_right k m))
      (fun b hab => by
        have := (hall (b - k) (by omega)).1
        rwa [show k + (b - k) = b by omega] at this)
      (fun b hab => by
        have h1 := (hall (b - k) (by omega)).2
        have h2 := (hall (b + 1 - k) (by omega)).2
        simp only [show k + (b - k) = b by omega] at h1
        simp only [show k + (b + 1 - k) = b + 1 by omega] at h2
        rw [h1, h2])
      hdtor hthread hschedule)
  obtain ⟨-, -, hdestroyed, -, hsleep⟩ := stops_exactly (h.reach (k + m))
  exact ⟨k + m, Nat.le_add_right k m, hm, fun c => hdestroyed c (by rw [hm]; rfl), hsleep hm⟩

end Executions

theorem destructor_returns_stopAsleep : ∃ states : ℕ → State Unit 1,
    states 0 = initial Unit 1 ∧ ((states 13).cores 0).pc = .wait .blocked ∧
      ∃ m, 14 ≤ m ∧ (states m).dtor = .done ∧ (∀ c, ((states m).cores c).pc = .ended) ∧
        (states m).sleepCount = 0 := by
  have hreplay : ((machine Unit 1).replayOk anyStep (initial Unit 1) stopAsleep).map
      (fun s => s.dtor == .done && (s.cores 0).pc == .ended) = some true := by decide
  obtain ⟨t, ht, hp⟩ := Option.map_eq_some_iff.mp hreplay
  simp only [Bool.and_eq_true, beq_iff_eq] at hp
  obtain ⟨states, hexec, h0, hend⟩ := exists_execution_of_replayOk (M := machine Unit 1)
    stopAsleep .other rfl ht trivial rfl
  have hblocked : ((states 13).cores 0).pc = .wait .blocked := by
    have hmap : ((machine Unit 1).replay (initial Unit 1) ((List.range 13).map
        fun n => stopAsleep.getD n .other)).map (fun s => (s.cores 0).pc)
        = some (.wait .blocked) := by decide
    rw [← h0, hexec.replay 13] at hmap
    exact Option.some.inj hmap
  -- from the end of the list on the BgThread and `~BgRunner` have no step
  have hlater : ∀ k, ∃ m, k ≤ m ∧ states m = t := fun k =>
    ⟨max k stopAsleep.length, Nat.le_max_left _ _, hend _ (Nat.le_max_right _ _)⟩
  have hentered : (states 14).dtor ≠ .notEntered := by
    have hstep : step (states 13) .destroy = some (states 14) := hexec.step 13
    simp only [step] at hstep
    split at hstep
    · injection hstep with hstep
      rw [← hstep]
      simp [enterDtor]
    · cases hstep
  refine ⟨states, h0, hblocked, destructor_returns hexec (weaklyFair_of_disabled fun k => ?_)
    (fun c => weaklyFair_of_disabled fun k => ?_) (fun c k _ => ?_) hentered⟩
  · obtain ⟨m, hkm, hm⟩ := hlater k
    refine ⟨m, hkm, ?_⟩
    rintro l rfl
    simp [machine, step, dtorStep, hm, hp.1]
  · obtain ⟨m, hkm, hm⟩ := hlater k
    refine ⟨m, hkm, ?_⟩
    rintro l ⟨more, rfl⟩
    simp [machine, step, threadStep, hm, Subsingleton.elim c 0, hp.2]
  · obtain ⟨m, hkm, hm⟩ := hlater k
    exact ⟨m, hkm, by simp [hm, Subsingleton.elim c 0, hp.2]⟩

end Stopping

end Alterstack
