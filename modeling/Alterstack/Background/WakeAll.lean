/-
  Alterstack.Background.WakeAll — `BgRunner::notify` leaves no sleeper asleep.

  A history variable remembers, for every enqueuer, which BgThreads have been
  blocked without a break since its last read of `sleep_count()`.  The loop of
  `BgRunner::notify` takes one BgThread after the other out of it, and a read
  of 0 means that nobody was in it.  (A BgThread that falls asleep later is
  another matter, see `Alterstack.Background.Pool`.)

  Main results:
    * `counters_of_reach` — in the pool both counters are exact, by the
      simulation of `Alterstack.Background.Stopping`;
    * `notify_wakes_all` — when `notify()` is over, no BgThread has slept
      through it.
-/
import Alterstack.Background.Stopping

namespace Alterstack

namespace Pool

open Lib Futex

variable {E : Type*} [DecidableEq E] {n : ℕ} {s t : State E n}

/-! ## §1. The counters of the pool. -/

theorem counters_of_reach (h : (machine E n).Reachable s) :
    (∀ c, Counted (s.futex c) (fun _ : Unit => (Stopping.ThreadPc.ofPool (s.bg c)).waiting)) ∧
      Counts s.sleepCount (fun c => (Stopping.ThreadPc.ofPool (s.bg c)).sleeping) := by
  have hinv := Stopping.inv_reach (Stopping.simulates_pool h)
  exact ⟨fun c => (hinv.cores c).counted, hinv.counts⟩

/-- Nobody is blocked behind a zero `sleep_count()`. -/
theorem not_blocked_of_sleepCount (hn : n < 2 ^ 32) (h : (machine E n).Reachable s)
    (h0 : s.sleepCount = 0) (c : Fin n) : s.bg c ≠ .wait .blocked := by
  have hnone := ((counters_of_reach h).2.eq_zero_iff (by simpa using hn)).mp h0 c
  intro hb
  rw [hb] at hnone
  cases hnone

/-- Nor behind a zero `m_wait_counter` of its futex. -/
theorem not_blocked_of_waitCounter (h : (machine E n).Reachable s) {c : Fin n}
    (h0 : ¬ (s.futex c).waitCounter > 0) : s.bg c ≠ .wait .blocked := by
  obtain ⟨_, hnot⟩ := ((counters_of_reach h).1 c).not_all_blocked (by simp)
    (UInt32.le_zero_iff.mp (UInt32.not_lt.mp h0))
  intro hb
  rw [hb] at hnot
  exact hnot rfl

/-! ## §2. Who has slept through a notification. -/

/-- The step reads `sleep_count()` for enqueuer `e`. -/
def readsGate (s : State E n) (e : E) : Label E n → Bool
  | .notify e' => decide (e' = e ∧ s.enqueuer e = .gate)
  | _ => false

/-- The history variable after a step. -/
def record (s : State E n) (l : Label E n) (asleep : E → Fin n → Bool) (e : E) (c : Fin n) : Bool :=
  match step s l with
  | none => asleep e c
  | some t => (readsGate s e l || asleep e c) && decide (t.bg c = .wait .blocked)

/-- The pool that remembers its sleepers. -/
def watched (E : Type*) [DecidableEq E] (n : ℕ) :
    Machine (State E n × (E → Fin n → Bool)) (Label E n) :=
  (machine E n).withHistory (fun _ _ _ => false) record

/-- The BgThreads that enqueuer `e` is past. -/
def EnqueuePc.past (c : Fin n) : EnqueuePc → Prop
  | .idle => True
  | .gate => False
  | .wakeUp core _ => c.val < core

structure Watch (s : State E n) (asleep : E → Fin n → Bool) : Prop where
  reach : (machine E n).Reachable s
  blocked : ∀ e c, asleep e c = true → s.bg c = .wait .blocked
  past : ∀ e c, (s.enqueuer e).past c → asleep e c = false

theorem record_of_step {l : Label E n} (h : step s l = some t) (asleep : E → Fin n → Bool) (e : E)
    (c : Fin n) : record s l asleep e c
      = ((readsGate s e l || asleep e c) && decide (t.bg c = .wait .blocked)) := by
  simp only [record, h]

theorem past_nextCore {c : Fin n} {core : ℕ} (h : (nextCore n (core + 1)).past c) :
    c.val ≤ core := by
  have := c.isLt
  unfold nextCore at h
  split at h
  · exact Nat.lt_succ_iff.mp h
  · omega

/-- A `wake_up()` that ends leaves its BgThread awake. -/
theorem not_blocked_of_wakeUpStep (h : (machine E n).Reachable s) {e : E} {c : Fin n}
    {pc : NotifyPc} (hend : ((s.futex c).notifyStep pc).2 = none) :
    (wakeUpStep s e c pc).bg c ≠ .wait .blocked := by
  cases pc with
  | load | store => cases hend
  | loadCounter =>
      have hzero : ¬ (s.futex c).waitCounter > 0 := by
        intro hpos
        simp [Futex.notifyStep, hpos] at hend
      simpa [wakeUpStep] using not_blocked_of_waitCounter h hzero
  | futexWake =>
      by_cases hb : s.bg c = .wait .blocked
      · simp [wakeUpStep, hb]
      · simp [wakeUpStep, hb]

/-- **One step of anybody**: whoever has slept since the gate of an enqueuer is
still ahead of its loop. -/
theorem watch_step (hn : n < 2 ^ 32) {asleep : E → Fin n → Bool} (hs : Watch s asleep)
    {l : Label E n} (h : step s l = some t) : Watch t (record s l asleep) := by
  have hrecord := record_of_step h asleep
  refine ⟨.step hs.reach trivial h, fun e c ha => ?_, fun e c hpast => ?_⟩
  · rw [hrecord, Bool.and_eq_true, decide_eq_true_iff] at ha
    exact ha.2
  rw [hrecord]
  by_contra hne
  simp only [Bool.and_eq_false_iff, Bool.or_eq_false_iff, decide_eq_false_iff_not, not_or,
    not_not] at hne
  obtain ⟨hne, hblocked⟩ := hne
  -- an enqueuer that the step leaves alone has not read the gate in it
  have same : t.enqueuer e = s.enqueuer e → readsGate s e l = false → False := fun hsame hgate =>
    hne ⟨hgate, hs.past e c (hsame ▸ hpast)⟩
  cases l with
  | put e' =>
      simp only [step] at h
      split at h
      next =>
        injection h with h
        subst h
        by_cases he : e = e'
        · subst he
          simp [EnqueuePc.past] at hpast
        · exact same (by simp [he]) rfl
      next => cases h
  | bg c' =>
      refine same ?_ rfl
      simp only [step, bgStep] at h
      split at h
      next =>
        split at h <;> injection h with h <;> subst h <;> rfl
      next =>
        injection h with h
        subst h
        rfl
      next =>
        obtain ⟨_, -, rfl⟩ := Option.map_eq_some_iff.mp h
        rfl
      next =>
        injection h with h
        subst h
        rfl
  | take =>
      simp only [step] at h
      split at h
      next => cases h
      next =>
        injection h with h
        subst h
        exact same rfl rfl
  | notify e' =>
      simp only [step, notifyStep] at h
      split at h
      next => cases h
      next he =>
        injection h with h
        subst h
        by_cases hee : e = e'
        · subst hee
          simp only [Function.update_self] at hpast
          by_cases h0 : s.sleepCount = 0
          · exact not_blocked_of_sleepCount hn hs.reach h0 c hblocked
          · have := c.isLt
            simp [h0, nextCore, show 0 < n by omega, EnqueuePc.past] at hpast
        · exact same (by simp [hee]) (by simp [readsGate, Ne.symm hee])
      next core pc he =>
        split at h
        next hcore =>
          injection h with h
          subst h
          by_cases hee : e = e'
          · subst hee
            have hgate : readsGate s e (.notify e) = false := by simp [readsGate, he]
            have hle : c.val ≤ core ∧ (c.val = core →
                ((s.futex ⟨core, hcore⟩).notifyStep pc).2 = none) := by
              simp only [wakeUpStep, Function.update_self] at hpast
              split at hpast
              next =>
                exact ⟨Nat.le_of_lt hpast, fun heq => absurd hpast (by simp [EnqueuePc.past, heq])⟩
              next hend => exact ⟨past_nextCore hpast, fun _ => hend⟩
            rcases Nat.lt_or_eq_of_le hle.1 with hlt | heq
            · exact hne ⟨hgate, hs.past e c (by rw [he]; exact hlt)⟩
            · obtain rfl : c = ⟨core, hcore⟩ := Fin.ext heq
              exact not_blocked_of_wakeUpStep hs.reach (hle.2 heq) hblocked
          · exact same (by simp [wakeUpStep, hee]) (by simp [readsGate, Ne.symm hee])
        next => cases h

/-- **`notify()` leaves no sleeper asleep.**  In every run, when an enqueuer is
through with `BgRunner::notify`, no BgThread has been blocked without a break
since that `notify()` read `sleep_count()`. -/
theorem notify_wakes_all (hn : n < 2 ^ 32) {s : State E n × (E → Fin n → Bool)}
    (h : (watched E n).Reachable s) {e : E} (he : s.1.enqueuer e = .idle) (c : Fin n) :
    s.2 e c = false := by
  have hwatch : Watch s.1 s.2 := by
    refine h.invariant (I := fun s => Watch s.1 s.2) ?_ ?_
    · rintro ⟨s, asleep⟩ ⟨h0, hasleep⟩
      obtain rfl : asleep = fun _ _ => false := hasleep
      exact ⟨.init h0, fun _ _ ha => (by cases ha), fun _ _ _ => rfl⟩
    · rintro ⟨s, asleep⟩ l ⟨t, asleep'⟩ hs - hstep
      obtain ⟨hstep, rfl⟩ := Machine.withHistory_step.mp hstep
      exact watch_step hn hs hstep
  exact hwatch.past e c (by rw [he]; trivial)

/-- A BgThread falls asleep, a task is put, and `notify()` runs to its end. -/
def wakes : List (Label Unit 1) :=
  List.replicate 10 (.bg ⟨0, Nat.one_pos⟩) ++ .put () :: List.replicate 5 (.notify ())

theorem notify_wakes_all_wakes : ∃ s : State Unit 1 × (Unit → Fin 1 → Bool),
    s.1.enqueuer () = .idle ∧ s.1.bg 0 = .wait .subCounter ∧ s.2 () 0 = false := by
  obtain ⟨s, hs, hp⟩ := Machine.exists_reach_of_replay (watched Unit 1) wakes
    (s := (initial Unit 1, fun _ _ => false))
    (fun s => s.1.enqueuer () == .idle && s.1.bg 0 == .wait .subCounter) ⟨rfl, rfl⟩ (by decide)
  simp only [Bool.and_eq_true, beq_iff_eq] at hp
  exact ⟨s, hp.1, hp.2, notify_wakes_all (by decide) hs hp.1 0⟩

end Pool

end Alterstack
