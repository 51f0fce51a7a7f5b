/-
  Alterstack.Awaitable.Failure — what `insert_current_task_in_waitlist` leaves
  behind when it returns false.

  The machine of `Alterstack.Awaitable.Handover` with a history variable: for
  every task its fields when it last entered the function, and whether
  `is_finished` was set when that call loaded the word.

  A call that finds the Awaitable finished has touched nothing.  A call that is
  overtaken by `release` has put `0x01` into the `m_context` of a task that is
  executed, and left its link at a head that it read.

  Main results:
    * `Handover.marked_on_failure` — a failed call after which `m_context` is
      `0x01` and the link that of a waiter;
    * `Handover.unchanged_iff_finishedAtLoad` — a failed call has no effect
      exactly when the Awaitable was finished at the load.
-/
import Alterstack.Awaitable.Handover

namespace Alterstack

namespace Handover

open Lib Awaitable

variable {R N : Type*} [DecidableEq R] [DecidableEq N]

/-! ## §1. Recording the calls. -/

/-- The last call of a task. -/
structure Call (N : Type*) where
  /-- the fields of the task when it entered the function -/
  entry : TaskBase N
  /-- `is_finished` in the word when the call loaded it -/
  finishedAtLoad : Bool

def record (s : State R N) : Label R N → (N → Call N) → N → Call N
  | .enterInsert x, calls => Function.update calls x { entry := s.task x, finishedAtLoad := false }
  | .insert x _, calls =>
      match s.inserter x with
      | .inserting .load =>
          Function.update calls x { calls x with finishedAtLoad := s.data.isFinished }
      | _ => calls
  | _, calls => calls

/-- The machine of the Awaitable that records the calls. -/
def recording (R N : Type*) [DecidableEq R] [DecidableEq N] :
    Machine (State R N × (N → Call N)) (Label R N) :=
  (machine R N).withHistory (fun s x => { entry := s.task x, finishedAtLoad := false }) record

/-- The next step of the call of `x` returns false. -/
def ReturnsFalse (s : State R N) (x : N) (spurious : Bool) : Prop :=
  ∃ pc, s.inserter x = .inserting pc ∧
    (insertStep x spurious s.data (s.task x) pc).2.2 = .ret false

/-- The task can be reached from the head of the Awaitable's list. -/
def OnWaitlist (s : State R N) (x : N) : Prop :=
  ∃ xs rest, Seg s.link s.data.head xs rest ∧ x ∈ xs

/-- The task is as it was on entry, and not in the list. -/
structure Unchanged (s : State R N) (x : N) (entry : TaskBase N) : Prop where
  fields : s.task x = entry
  absent : ¬ OnWaitlist s x

/-! ## §2. The invariant. -/

/-- Up to the load a call has touched nothing; past it, it has found the
Awaitable open. -/
def CallOk (task : TaskBase N) (call : Call N) : InsertPc N → Prop
  | .load => task = call.entry
  | _ => call.finishedAtLoad = false

structure RecInv (s : State R N × (N → Call N)) : Prop where
  calls : ∀ x pc, s.1.inserter x = .inserting pc → CallOk (s.1.task x) (s.2 x) pc
  closed : s.1.data.isFinished = true → s.1.data.head = none

/-- The task a label moves or touches. -/
def Label.task : Label R N → Option N
  | .enterInsert x | .insert x _ | .resume x | .touch x _ => some x
  | .enterRelease _ | .release _ _ | .endPass _ => none

/-- A step leaves all other tasks and the records of their calls alone. -/
theorem step_other {s t : State R N} {l : Label R N} (hs : step s l = some t) {y : N}
    (hy : l.task ≠ some y) (calls : N → Call N) :
    t.inserter y = s.inserter y ∧ t.task y = s.task y ∧ record s l calls y = calls y := by
  cases l with
  | enterInsert x =>
    have hyx : y ≠ x := fun heq => hy (congrArg some heq.symm)
    obtain ⟨-, rfl⟩ := step_enterInsert hs
    simp [record, hyx]
  | insert x spurious =>
    have hyx : y ≠ x := fun heq => hy (congrArg some heq.symm)
    obtain ⟨pc, hx, rfl⟩ := step_insert hs
    refine ⟨by simp [afterInsert, hyx], by simp [afterInsert, hyx], ?_⟩
    cases pc <;> simp [record, hx, hyx]
  | resume x =>
    have hyx : y ≠ x := fun heq => hy (congrArg some heq.symm)
    obtain ⟨-, rfl⟩ := step_resume hs
    simp [record, hyx]
  | touch x fields =>
    have hyx : y ≠ x := fun heq => hy (congrArg some heq.symm)
    obtain ⟨-, rfl⟩ := step_touch hs
    simp [record, hyx]
  | enterRelease r =>
    obtain ⟨-, rfl⟩ := step_enterRelease hs
    exact ⟨rfl, rfl, rfl⟩
  | release r spurious =>
    obtain ⟨pc, -, rfl⟩ := step_release hs
    exact ⟨rfl, rfl, rfl⟩
  | endPass r =>
    obtain rfl := step_endPass hs
    exact ⟨rfl, rfl, rfl⟩

/-- The word after a step: as before, open, or without a list. -/
theorem data_step {s t : State R N} {l : Label R N} (hs : step s l = some t) :
    t.data = s.data ∨ t.data.isFinished = false ∨ t.data.head = none := by
  cases l with
  | insert x spurious =>
    obtain ⟨pc, -, rfl⟩ := step_insert hs
    cases pc with
    | cas aw =>
      -- only the insertion itself writes the word, and leaves it open
      simp only [afterInsert, insertStep]
      split
      next => exact .inr (.inl rfl)
      next => split <;> exact .inl rfl
    | load | setState aw | setContext aw | undoState | undoContext => exact .inl rfl
  | release r spurious =>
    obtain ⟨pc, -, rfl⟩ := step_release hs
    cases pc with
    | load => exact .inl rfl
    | cas aw =>
      simp only [afterRelease, releaseStep]
      split
      next => exact .inr (.inr rfl)
      next => split <;> exact .inl rfl
  | enterInsert x =>
    obtain ⟨-, rfl⟩ := step_enterInsert hs
    exact .inl rfl
  | enterRelease r =>
    obtain ⟨-, rfl⟩ := step_enterRelease hs
    exact .inl rfl
  | endPass r =>
    obtain rfl := step_endPass hs
    exact .inl rfl
  | resume x =>
    obtain ⟨-, rfl⟩ := step_resume hs
    exact .inl rfl
  | touch x fields =>
    obtain ⟨-, rfl⟩ := step_touch hs
    exact .inl rfl

omit [DecidableEq N] in
theorem callOk_iff {task : TaskBase N} {call : Call N} {pc : InsertPc N} (h : pc ≠ .load) :
    CallOk task call pc ↔ call.finishedAtLoad = false := by
  cases pc with
  | load => exact absurd rfl h
  | setState aw | setContext aw | cas aw | undoState | undoContext => exact Iff.rfl

/-- No step leads back to the load. -/
theorem insertStep_ne_load {x : N} {spurious : Bool} {data : AwaitableData N} {task : TaskBase N}
    {pc pc' : InsertPc N} (h : (insertStep x spurious data task pc).2.2 = .goto pc') :
    pc' ≠ .load := by
  rintro rfl
  cases pc with
  | load | cas aw =>
    simp only [insertStep] at h
    repeat' split at h
    all_goals cases h
  | setState aw | setContext aw | undoState | undoContext => cases h

omit [DecidableEq R] in
theorem goto_of_afterInsert {s : State R N} {x : N}
    {r : AwaitableData N × TaskBase N × InsertNext N} {pc : InsertPc N}
    (h : (afterInsert s x r).inserter x = .inserting pc) : r.2.2 = .goto pc := by
  simp only [afterInsert, Function.update_self] at h
  split at h
  next pc' hgoto =>
    injection h with h
    rw [hgoto, h]
  next => cases h
  next => cases h

/-- The call of `x` after a step of `x`. -/
theorem callOk_step {s t : State R N} {l : Label R N} {x : N} (hs : step s l = some t)
    (hl : l.task = some x) {calls : N → Call N}
    (h : ∀ pc, s.inserter x = .inserting pc → CallOk (s.task x) (calls x) pc) {pc : InsertPc N}
    (hpc : t.inserter x = .inserting pc) : CallOk (t.task x) (record s l calls x) pc := by
  cases l with
  | enterInsert y =>
    injection hl with hl
    subst hl
    obtain ⟨-, rfl⟩ := step_enterInsert hs
    simp only [Function.update_self, Inserter.inserting.injEq] at hpc
    subst hpc
    -- the record is written on entry
    simp [CallOk, record]
  | insert y spurious =>
    injection hl with hl
    subst hl
    obtain ⟨pc', hx, rfl⟩ := step_insert hs
    have hok := h pc' hx
    have hgoto := goto_of_afterInsert hpc
    rw [callOk_iff (insertStep_ne_load hgoto)]
    cases pc' with
    | load =>
      -- the call goes on, so the load did not find the Awaitable finished
      have hopen : s.data.isFinished = false := by
        cases hf : s.data.isFinished with
        | false => rfl
        | true => simp [insertStep, hf] at hgoto
      simp [record, hx, hopen]
    | setState aw | setContext aw | cas aw | undoState | undoContext =>
      simpa [record, hx] using show (calls y).finishedAtLoad = false from hok
  | resume y =>
    injection hl with hl
    subst hl
    obtain ⟨-, rfl⟩ := step_resume hs
    simp at hpc
  | touch y fields =>
    injection hl with hl
    subst hl
    obtain ⟨hidle, rfl⟩ := step_touch hs
    rw [hidle] at hpc
    cases hpc
  | enterRelease r | release r spurious | endPass r => cases hl

theorem recInv_step {s t : State R N × (N → Call N)} {l : Label R N} (h : RecInv s)
    (hs : (recording R N).step s l = some t) : RecInv t := by
  obtain ⟨hstep, hrecord⟩ := Machine.withHistory_step.mp hs
  constructor
  · intro x pc hpc
    rw [← hrecord]
    by_cases hl : l.task = some x
    · exact callOk_step hstep hl (h.calls x) hpc
    · obtain ⟨hins, htask, hcall⟩ := step_other hstep hl s.2
      rw [htask, hcall]
      exact h.calls x pc (hins ▸ hpc)
  · intro hf
    rcases data_step hstep with heq | hopen | hnone
    · rw [heq] at hf ⊢
      exact h.closed hf
    · rw [hf] at hopen
      cases hopen
    · exact hnone

theorem recInv_reachable {s : State R N × (N → Call N)} (h : (recording R N).Reachable s) :
    RecInv s := by
  refine h.invariant ?_ (fun s l t hs _ hstep => recInv_step hs hstep)
  rintro ⟨s, calls⟩ ⟨⟨task, rfl⟩, -⟩
  constructor
  · intro x pc hpc
    cases hpc
  · intro hf
    cases hf

/-! ## §3. A failed call. -/

/-- **Failure is atomic exactly when the load finds the Awaitable finished.**
In every run, whenever the call of an executing task returns false. -/
theorem unchanged_iff_finishedAtLoad {s t : State R N × (N → Call N)}
    (hs : (recording R N).Reachable s) {x : N} {spurious : Bool}
    (hstep : (recording R N).step s (.insert x spurious) = some t)
    (hret : ReturnsFalse s.1 x spurious) (hentry : (t.2 x).entry.context = .null) :
    Unchanged t.1 x (t.2 x).entry ↔ (t.2 x).finishedAtLoad = true := by
  have hinv := recInv_reachable hs
  have hinv' := recInv_step hinv hstep
  obtain ⟨hnext, hrecord⟩ := Machine.withHistory_step.mp hstep
  obtain ⟨pc, hpc, hfalse⟩ := hret
  have hok := hinv.calls x pc hpc
  have ht : t.1 = afterInsert s.1 x (insertStep x spurious s.1.data (s.1.task x) pc) := by
    have : step s.1 (.insert x spurious) = some t.1 := hnext
    simpa [step, hpc] using this.symm
  cases pc with
  | load =>
    -- nothing was written, and a finished word has no list
    have hf : s.1.data.isFinished = true := by
      by_contra hopen
      simp [insertStep, hopen] at hfalse
    have hcall : t.2 x = { s.2 x with finishedAtLoad := true } := by
      rw [← hrecord]
      simp [record, hpc, hf]
    have hdata : t.1.data = s.1.data := by rw [ht]; rfl
    have hhead : t.1.data.head = none := hinv'.closed (by rw [hdata]; exact hf)
    refine iff_of_true ⟨?_, ?_⟩ (by rw [hcall])
    · rw [hcall, ht]
      simpa [afterInsert, insertStep] using show s.1.task x = (s.2 x).entry from hok
    · rintro ⟨xs, rest, hseg, hx⟩
      rw [hhead] at hseg
      cases xs with
      | nil => cases hx
      | cons y ys => cases hseg.1
  | undoContext =>
    -- the mark that is left in `m_context`
    have hcall : t.2 x = s.2 x := by
      rw [← hrecord]
      simp [record, hpc]
    have hmark : (t.1.task x).context = .one := by
      rw [ht]
      simp [afterInsert, insertStep]
    refine iff_of_false (fun h => ?_) ?_
    · rw [h.fields, hentry] at hmark
      cases hmark
    · rw [hcall, hok]
      exact Bool.false_ne_true
  | cas aw =>
    simp only [insertStep] at hfalse
    repeat' split at hfalse
    all_goals cases hfalse
  | setState aw | setContext aw | undoState => cases hfalse

deriving instance DecidableEq for Inserter

/-- The Awaitable, its tasks and the record at first. -/
def start : State Unit Bool × (Bool → Call Bool) :=
  (initial fun _ => {}, fun _ => { entry := {}, finishedAtLoad := false })

/-- A task calls the function after a release. -/
def lateCall : List (Label Unit Bool) :=
  [.enterRelease (), .release () false, .release () false, .enterInsert true]

theorem unchanged_iff_finishedAtLoad_lateCall :
    ∃ s t : State Unit Bool × (Bool → Call Bool), (recording Unit Bool).Reachable s ∧
      (recording Unit Bool).step s (.insert true false) = some t ∧
      Unchanged t.1 true (t.2 true).entry := by
  obtain ⟨s, hs, hp⟩ := Machine.exists_reach_of_replay (recording Unit Bool) lateCall
    (s := start) (fun s => s.1.data.isFinished && s.1.inserter true == .inserting .load &&
      ((recording Unit Bool).step s (.insert true false)).any (fun t =>
        (t.2 true).finishedAtLoad && (t.2 true).entry.context == .null))
    ⟨⟨_, rfl⟩, rfl⟩ (by decide)
  simp only [Bool.and_eq_true, Option.any_eq_true, beq_iff_eq] at hp
  obtain ⟨⟨hf, hpc⟩, t, ht, hfound, hentry⟩ := hp
  have hret : ReturnsFalse s.1 true false := ⟨.load, hpc, by simp [insertStep, hf]⟩
  exact ⟨s, t, hs, ht, (unchanged_iff_finishedAtLoad hs ht hret hentry).mpr hfound⟩

/-- One task is in the list; another loads the word and prepares itself; then
the Awaitable is released, and the compare-exchange fails. -/
def overtakenCall : List (Label Unit Bool) :=
  [.enterInsert false, .insert false false, .insert false false, .insert false false,
   .insert false false, .enterInsert true, .insert true false, .insert true false,
   .insert true false, .enterRelease (), .release () false, .release () false,
   .insert true false, .insert true false]

/-- **A failed call that leaves `0x01` in `m_context` and a link to a waiter.** -/
theorem marked_on_failure : ∃ s t : State Unit Bool × (Bool → Call Bool),
    (recording Unit Bool).Reachable s ∧
      (recording Unit Bool).step s (.insert true false) = some t ∧
      ReturnsFalse s.1 true false ∧ (t.2 true).entry = {} ∧
      (t.1.task true).context = .one ∧ (t.1.task true).next = some false ∧
      ¬ Unchanged t.1 true (t.2 true).entry := by
  obtain ⟨s, hs, hp⟩ := Machine.exists_reach_of_replay (recording Unit Bool) overtakenCall
    (s := start) (fun s => s.1.inserter true == .inserting .undoContext &&
      ((recording Unit Bool).step s (.insert true false)).any (fun t =>
        (t.2 true).entry == {} && (t.1.task true).context == .one &&
          (t.1.task true).next == some false))
    ⟨⟨_, rfl⟩, rfl⟩ (by decide)
  simp only [Bool.and_eq_true, Option.any_eq_true, beq_iff_eq] at hp
  obtain ⟨hpc, t, ht, ⟨hentry, hmark⟩, hlink⟩ := hp
  refine ⟨s, t, hs, ht, ⟨.undoContext, hpc, rfl⟩, hentry, hmark, hlink, fun h => ?_⟩
  rw [h.fields, hentry] at hmark
  cases hmark

end Handover

end Alterstack
