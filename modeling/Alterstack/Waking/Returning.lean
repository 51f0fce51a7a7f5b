/-
  Alterstack.Waking.Returning — every call of `add_waiting_list_to_running`
  returns.

  The measure counts what the call has still to do, at most three things for
  each task, and within a round the accesses that are left.  Every step of the
  call makes it smaller, but for one: the sleeping loop of
  `wait_while_context_is_null`, as long as the context it looks at is null.

  Main results:
    * `runStep_measure` — a step of the call, or one more look at a null
      context;
    * `passes_on_all` — the call returns, and it has then passed on every task
      of its list.
-/
import Alterstack.Waking.Passing

namespace Alterstack

namespace Waking

open Lib (Machine)
open Lib.Machine (Execution eventually_of_measure stays_of_succ exists_execution_of_replayOk)

variable {N : Type*} [DecidableEq N] {isThreadBound : N → Bool} {l : List N} {s s' : State N}

/-! ## §1. The measure. -/

/-- The accesses that are left until the call does the next thing for a task;
a context that is not null is looked at once more. -/
def rank (s : State N) : ℕ :=
  match s.pc with
  | .delay _ _ _ => 7
  | .delayedReadNext _ => 6
  | .delayedClearNext _ _ => 5
  | .whileContext task _ => if (s.task task).context = .null then 4 else 1
  | .ifContext _ _ | .readNext _ _ => 3
  | .sleepContext _ _ | .clearNext _ _ _ | .loadContext _ _ _ => 2
  | .setState _ _ _ | .notify _ _ _ | .enqueue _ _ _ => 1
  | .delayedEnqueue _ _ | .returned => 0

def measure (l : List N) (s : State N) : ℕ := 8 * (3 * l.length - s.log.length) + rank s

/-- The call sleeps until the context of the task is no longer null. -/
def Sleeping (s : State N) (task : N) (nullContextTasks : Option N) : Prop :=
  s.pc = .sleepContext task nullContextTasks ∧ (s.task task).context = .null

section Room

variable {link : N → Option N} {task : N} {taskList nullContextTasks : Option N}
  {log : List (Event N)}

omit [DecidableEq N] in
theorem InList.room (h : InList isThreadBound l link task taskList nullContextTasks log) :
    log.length + 2 ≤ 3 * l.length := by
  obtain ⟨visited, delayed, rest, hvisited, rfl, -, -⟩ := h
  have := hvisited.length
  simp only [List.length_append, List.length_cons]
  omega

omit [DecidableEq N] in
theorem InDelayed.room (h : InDelayed isThreadBound l link task nullContextTasks log) :
    log.length + 1 ≤ 3 * l.length := by
  obtain ⟨early, late, done, rest, hvisited, hlate, rfl, -⟩ := h
  have hlength := hvisited.length
  have heq := hlate.length_eq
  simp only [List.length_append, List.length_cons] at hlength ⊢
  omega

end Room

/-- The heads of the two loops. -/
theorem rank_listLoop {taskList nullContextTasks : Option N}
    (hpc : s.pc = listLoop nullContextTasks taskList) : rank s ≤ 6 := by
  cases taskList <;> cases nullContextTasks <;> simp [rank, hpc, listLoop, delayedLoop]

theorem rank_delayedLoop {nullContextTasks : Option N} (hpc : s.pc = delayedLoop nullContextTasks) :
    rank s ≤ 6 := by
  cases nullContextTasks <;> simp [rank, hpc, delayedLoop]

theorem measure_lt_of_rank (hlog : s'.log = s.log) (hrank : rank s' < rank s) :
    measure l s' < measure l s := by
  simp only [measure, hlog]
  omega

/-- Something has been done for a task. -/
theorem measure_lt_of_record {e : Event N} (hlog : s'.log = s.log ++ [e])
    (hroom : s.log.length < 3 * l.length) (hrank : rank s' ≤ 7) :
    measure l s' < measure l s := by
  simp only [measure, hlog, List.length_append, List.length_cons, List.length_nil]
  omega

/-- **A step of the call** makes the measure smaller, unless it only looks at a
null context again. -/
theorem runStep_measure (hs : Inv isThreadBound l s) (h : runStep isThreadBound s = some s') :
    measure l s' < measure l s ∨ (s' = s ∧ ∃ task delayed, Sleeping s task delayed) := by
  cases hpc : s.pc with
  | readNext task delayed =>
      simp only [runStep, hpc] at h
      injection h with h
      subst h
      exact .inl (measure_lt_of_rank rfl (by simp [rank, State.goto, hpc]))
  | clearNext task taskList delayed =>
      simp only [runStep, hpc] at h
      injection h with h
      subst h
      exact .inl (measure_lt_of_rank rfl (by simp [rank, State.goto, hpc]))
  | setState task taskList delayed =>
      simp only [Inv, hpc] at hs
      have hroom := hs.2.room
      simp only [runStep, hpc] at h
      injection h with h
      subst h
      refine .inl (measure_lt_of_record rfl (by omega) ?_)
      cases isThreadBound task <;> simp [rank, State.goto]
  | notify task taskList delayed =>
      simp only [Inv, hpc] at hs
      obtain ⟨-, log, hlog, hs⟩ := hs
      have hroom := hs.room
      simp only [runStep, hpc] at h
      injection h with h
      subst h
      have hrank := rank_listLoop
        (s := (s.record (.notified task)).goto (listLoop delayed taskList)) rfl
      exact .inl (measure_lt_of_record rfl (by simp [hlog]; omega) (by omega))
  | loadContext task taskList delayed =>
      simp only [Inv, hpc] at hs
      obtain ⟨-, -, log, hlog, hs⟩ := hs
      have hroom := hs.room
      simp only [runStep, hpc] at h
      split at h
      next =>
        injection h with h
        subst h
        exact .inl (measure_lt_of_record rfl (by simp [hlog]; omega) (by simp [rank, State.goto]))
      next =>
        injection h with h
        subst h
        exact .inl (measure_lt_of_rank rfl (by simp [rank, State.goto, hpc]))
  | delay task taskList delayed =>
      simp only [runStep, hpc] at h
      injection h with h
      subst h
      have hrank := rank_listLoop
        (s := (s.setNext task delayed).goto (listLoop (some task) taskList)) rfl
      refine .inl (measure_lt_of_rank rfl (Nat.lt_of_le_of_lt hrank ?_))
      simp [rank, hpc]
  | enqueue task taskList delayed =>
      simp only [Inv, hpc] at hs
      obtain ⟨-, -, -, log, hlog, hs⟩ := hs
      have hroom := hs.room
      simp only [runStep, hpc] at h
      injection h with h
      subst h
      have hrank := rank_listLoop
        (s := (s.record (.enqueued task (s.link task) (s.task task).context)).goto
          (listLoop delayed taskList)) rfl
      exact .inl (measure_lt_of_record rfl (by simp [hlog]; omega) (by omega))
  | delayedReadNext task =>
      simp only [runStep, hpc] at h
      injection h with h
      subst h
      exact .inl (measure_lt_of_rank rfl (by simp [rank, State.goto, hpc]))
  | delayedClearNext task delayed =>
      simp only [runStep, hpc] at h
      injection h with h
      subst h
      refine .inl (measure_lt_of_rank rfl ?_)
      simp only [rank, State.goto, hpc]
      by_cases hnull : ((s.setNext task none).task task).context = .null <;> simp [hnull]
  | whileContext task delayed =>
      simp only [runStep, hpc] at h
      injection h with h
      subst h
      refine .inl (measure_lt_of_rank rfl ?_)
      by_cases hnull : (s.task task).context = .null <;> simp [rank, State.goto, hpc, hnull]
  | ifContext task delayed =>
      simp only [runStep, hpc] at h
      injection h with h
      subst h
      refine .inl (measure_lt_of_rank rfl ?_)
      by_cases hnull : (s.task task).context = .null <;> simp [rank, State.goto, hpc, hnull]
  | sleepContext task delayed =>
      simp only [runStep, hpc] at h
      injection h with h
      subst h
      by_cases hnull : (s.task task).context = .null
      · refine .inr ⟨?_, task, delayed, hpc, hnull⟩
        simp [State.goto, hnull, ← hpc]
      · exact .inl (measure_lt_of_rank rfl (by simp [rank, State.goto, hpc, hnull]))
  | delayedEnqueue task delayed =>
      simp only [Inv, hpc] at hs
      have hroom := hs.2.2.room
      simp only [runStep, hpc] at h
      injection h with h
      subst h
      have hrank := rank_delayedLoop
        (s := (s.record (.enqueued task (s.link task) (s.task task).context)).goto
          (delayedLoop delayed)) rfl
      exact .inl (measure_lt_of_record rfl (by omega) (by omega))
  | returned =>
      simp only [runStep, hpc] at h
      cases h

/-- What the rest of the program does never makes it larger. -/
theorem other_measure {task' : N → TaskBase N} (hl : l.Nodup) (hs : Inv isThreadBound l s)
    (hok : LeavesAlone isThreadBound l s (.other task')) :
    measure l { s with task := task' } ≤ measure l s := by
  have hrank : rank { s with task := task' } ≤ rank s := by
    cases hpc : s.pc with
    | whileContext task delayed =>
        simp only [Inv, hpc] at hs
        have hkept := (hok task hs.2.mem.1 (hs.2.not_passed hl)).2 hs.2.mem.2
        by_cases hnull : (s.task task).context = .null
        · simp only [rank, hpc, hnull, if_true]
          split <;> omega
        · simp [rank, hpc, hnull, hkept hnull]
    | _ => simp [rank, hpc]
  simp only [measure]
  omega

/-! ## §2. Every call returns. -/

section Executions

variable {states : ℕ → State N} {labels : ℕ → Label N}
  (h : (machine isThreadBound l).Execution (LeavesAlone isThreadBound l) states labels)

include h

/-- A step makes the measure smaller, or is a step of others, or one more look
at a null context. -/
theorem step_measure (n : ℕ) : measure l (states (n + 1)) < measure l (states n) ∨
    (∃ task', labels n = .other task' ∧ states (n + 1) = { states n with task := task' } ∧
      measure l (states (n + 1)) ≤ measure l (states n)) ∨
    (labels n = .run ∧ states (n + 1) = states n ∧
      ∃ task delayed, Sleeping (states n) task delayed) := by
  have hstep := h.step n
  have hok := h.ok n
  obtain ⟨hl, hs⟩ := inv_reach (h.reach n)
  cases hlabel : labels n with
  | run =>
      rw [hlabel] at hstep
      rcases runStep_measure hs hstep with hlt | ⟨hsame, hsleeping⟩
      · exact .inl hlt
      · exact .inr (.inr ⟨rfl, hsame, hsleeping⟩)
  | other task' =>
      rw [hlabel] at hstep hok
      injection hstep with hstep
      have hle := other_measure hl hs hok
      exact .inr (.inl ⟨task', rfl, hstep.symm, hstep ▸ hle⟩)

theorem measure_succ_le (n : ℕ) : measure l (states (n + 1)) ≤ measure l (states n) := by
  rcases step_measure h n with hlt | ⟨task', -, -, hle⟩ | ⟨-, hsame, -⟩
  · exact Nat.le_of_lt hlt
  · exact hle
  · exact Nat.le_of_eq (by rw [hsame])

/-- The steps at which the measure rests. -/
theorem rests {n : ℕ} (hrest : measure l (states (n + 1)) = measure l (states n)) :
    (∃ task', labels n = .other task' ∧ states (n + 1) = { states n with task := task' }) ∨
      (labels n = .run ∧ states (n + 1) = states n ∧
        ∃ task delayed, Sleeping (states n) task delayed) := by
  rcases step_measure h n with hlt | ⟨task', hlabel, hsame, -⟩ | hsleeping
  · omega
  · exact .inl ⟨task', hlabel, hsame⟩
  · exact .inr hsleeping

/-- The measure does not rest from `n` on: the call would sleep, until the
context of its task is saved, and then go on. -/
theorem not_sleeping_forever {n : ℕ}
    (hrest : ∀ m, n ≤ m → measure l (states (m + 1)) = measure l (states m))
    (hgoes : ∀ m, n ≤ m → ∃ k, m ≤ k ∧ labels k = .run)
    (hnull : ∀ m, n ≤ m → ∀ x ∈ l, isThreadBound x = false → x ∉ enqueues (states m).log →
      ((states m).task x).context = .null →
      ∃ k, m ≤ k ∧ ((states k).task x).context ≠ .null) : False := by
  obtain ⟨m, hnm, hm⟩ := hgoes n (Nat.le_refl n)
  -- at its next step the call looks at a null context
  obtain ⟨task, delayed, hpc, hcontext⟩ : ∃ task delayed, Sleeping (states m) task delayed := by
    rcases rests h (hrest m hnm) with ⟨task', hlabel, -⟩ | ⟨-, -, hsleeping⟩
    · rw [hm] at hlabel
      cases hlabel
    · exact hsleeping
  -- and it stays there
  have hstays : ∀ k, m ≤ k → (states k).pc = .sleepContext task delayed := fun k hk =>
    stays_of_succ (P := fun k => (states k).pc = .sleepContext task delayed) hpc
      (fun k hk ih => by
        rcases rests h (hrest k (Nat.le_trans hnm hk)) with ⟨task', -, hsame⟩ | ⟨-, hsame, -⟩
        · rw [hsame]
          exact ih
        · rw [hsame]
          exact ih) hk
  have hheld : ∀ k, m ≤ k → task ∈ l ∧ isThreadBound task = false ∧
      ¬ Passed isThreadBound (states k).log task := by
    intro k hk
    obtain ⟨hl, hs⟩ := inv_reach (h.reach k)
    simp only [Inv, hstays k hk] at hs
    exact ⟨hs.2.mem.1, hs.2.mem.2, hs.2.not_passed hl⟩
  obtain ⟨hmem, hb, hnot⟩ := hheld m (Nat.le_refl m)
  obtain ⟨k, hmk, hk⟩ := hnull m hnm task hmem hb (fun hin =>
    hnot ((passed_of_unbound hb).mpr hin)) hcontext
  -- once the context is saved nobody sets it back
  have hsaved : ∀ j, k ≤ j → ((states j).task task).context ≠ .null := fun j hj =>
    stays_of_succ (P := fun j => ((states j).task task).context ≠ .null) hk
      (fun j hj ih => by
        have hmj := Nat.le_trans hmk hj
        have hok := h.ok j
        rcases rests h (hrest j (Nat.le_trans hnm hmj)) with ⟨task', hlabel, hsame⟩ | ⟨-, hsame, -⟩
        · rw [hlabel] at hok
          rw [hsame]
          exact (hok task hmem (hheld j hmj).2.2).2 hb ih
        · rw [hsame]
          exact ih) hj
  obtain ⟨j, hkj, hj⟩ := hgoes k (Nat.le_trans hnm hmk)
  have hmj := Nat.le_trans hmk hkj
  rcases rests h (hrest j (Nat.le_trans hnm hmj)) with ⟨task', hlabel, -⟩ | ⟨-, -, t, d, hpc', hc'⟩
  · rw [hj] at hlabel
    cases hlabel
  · rw [hstays j hmj] at hpc'
    cases hpc'
    exact hsaved j hkj hc'

/-- **Every task of the list is passed on.**  If the thread of the call is
scheduled again and again, and every null `m_context` the call may wait for is
saved at some time, then the call returns; and when it has returned, each task
of the list has been passed on exactly once. -/
theorem passes_on_all
    (hgoes : ∀ n, (states n).pc ≠ .returned → ∃ m, n ≤ m ∧ labels m = .run)
    (hnull : ∀ n, ∀ x ∈ l, isThreadBound x = false → x ∉ enqueues (states n).log →
      ((states n).task x).context = .null →
      ∃ m, n ≤ m ∧ ((states m).task x).context ≠ .null) :
    (∃ n, (states n).pc = .returned) ∧
      ∀ n, (states n).pc = .returned → PassedOn isThreadBound l (states n).log := by
  constructor
  · refine eventually_of_measure (μ := fun n => measure l (states n))
      (fun n _ => measure_succ_le h n) fun n hall => ?_
    have heq : ∀ m, n ≤ m → measure l (states m) = measure l (states n) := fun m hm => (hall m hm).2
    refine not_sleeping_forever h (n := n) (fun m hm => ?_) (fun m hm => ?_) fun m _ => hnull m
    · exact (heq _ (Nat.le_succ_of_le hm)).trans (heq m hm).symm
    · exact hgoes m (hall m hm).1
  · intro n hpc
    exact passedOn_of_reach (h.reach n) hpc

end Executions

instance (log : List (Event N)) (x : N) : Decidable (Passed isThreadBound log x) :=
  inferInstanceAs (Decidable
    (if isThreadBound x then x ∈ (stores log).map Prod.fst else x ∈ enqueues log))

instance (label : Label N) : Decidable (LeavesAlone isThreadBound l s label) :=
  match label with
  | .run => isTrue trivial
  | .other task => inferInstanceAs (Decidable (∀ x ∈ l, ¬ Passed isThreadBound s.log x →
      (task x).next = s.link x ∧
        (isThreadBound x = false → (s.task x).context ≠ .null → (task x).context ≠ .null)))

/-- The tasks of the run below. -/
inductive Waiter where
  | late
  | bound
  | ready
  deriving DecidableEq

open Waiter

def Waiter.isBound : Waiter → Bool
  | bound => true
  | _ => false

/-- The list `late`, `bound`, `ready`; the context of `late` is not saved yet. -/
def waiters : State Waiter where
  task := fun
    | late => { state := .waiting, next := some bound }
    | bound => { state := .waiting, next := some ready }
    | ready => { state := .waiting, context := .fcontext ready }
  pc := .readNext late none
  log := []

/-- All contexts are saved. -/
def saved (x : Waiter) : TaskBase Waiter := { context := .fcontext x }

/-- The call delays `late`, passes the others on, sleeps once, and is woken by
the store to `m_context`. -/
def sleepsOnce : List (Label Waiter) :=
  List.replicate 19 .run ++ .other saved :: List.replicate 3 .run

theorem passes_on_all_sleepsOnce : ∃ states : ℕ → State Waiter,
    states 0 = waiters ∧ ∃ n, (states n).pc = .returned ∧
      PassedOn Waiter.isBound [late, bound, ready] (states n).log := by
  have hstart : Start [late, bound, ready] waiters :=
    ⟨by decide, rfl, some late, rfl, rfl, rfl, rfl, rfl⟩
  have hreplay : (machine Waiter.isBound [late, bound, ready]).replayOk
      (LeavesAlone Waiter.isBound [late, bound, ready]) waiters sleepsOnce =
        some ⟨saved, .returned, [.stored late .running, .delayed late, .stored bound .running,
          .notified bound, .stored ready .running, .enqueued ready none (.fcontext ready),
          .enqueued late none (.fcontext late)]⟩ := rfl
  obtain ⟨states, hexec, h0, hend⟩ := exists_execution_of_replayOk sleepsOnce (.other saved)
    hstart hreplay (by decide) rfl
  -- the last label of the list belongs to the call
  have hgoes : ∀ n, (states n).pc ≠ .returned →
      ∃ m, n ≤ m ∧ sleepsOnce.getD m (.other saved) = .run := by
    intro n hn
    refine ⟨22, ?_, rfl⟩
    by_contra hle
    have hlength : sleepsOnce.length = 23 := rfl
    exact hn (by rw [hend n (by omega)])
  obtain ⟨⟨n, hn⟩, hpassed⟩ := passes_on_all hexec hgoes fun n x _ _ _ _ =>
    ⟨max n sleepsOnce.length, Nat.le_max_left _ _, by
      rw [hend _ (Nat.le_max_right _ _)]
      exact fun h => by cases h⟩
  exact ⟨states, h0, n, hn, hpassed n hn⟩

end Waking

end Alterstack
