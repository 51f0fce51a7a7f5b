/-
  Alterstack.Awaitable.Handover — one Awaitable, its waiters handed over
  exactly once.

  Any number of tasks run `insert_current_task_in_waitlist` and any number of
  threads run `release` on one Awaitable.  A task starts an insertion only
  while it is in no wait list, and nobody touches the link of a listed task;
  the fields of an idle task may change in any way.  The ghost `log` records
  what the calls did, newest first.

  Main results:
    * `Handover.handover_exact` — the list of the successful finishing
      compare-exchange is the tasks inserted so far, newest first, and from
      then on nothing is inserted or passed on.
-/
import Alterstack.Lib.Machine
import Alterstack.Lib.Segment
import Alterstack.Awaitable.Code

namespace Alterstack

namespace Handover

open Lib Awaitable

/-! ## §1. The machine. -/

/-- What a task does: nothing here, an insertion, or waiting in the list. -/
inductive Inserter (N : Type*) where
  | idle
  | inserting (pc : InsertPc N)
  | listed

/-- What a releasing thread does: nothing here, `release`, or
`add_waiting_list_to_running` of the list it took. -/
inductive Releaser (N : Type*) where
  | idle
  | releasing (pc : ReleasePc N)
  | passing (taskList : Option N)

/-- Results of the calls, as the ghost log records them. -/
inductive Event (R N : Type*) where
  | inserted (x : N)
  | refused (x : N)
  | passed (r : R) (taskList : Option N)
  | returned (r : R)

structure State (R N : Type*) where
  data : AwaitableData N
  task : N → TaskBase N
  inserter : N → Inserter N
  releaser : R → Releaser N
  log : List (Event R N)

/-- What may happen next: a task enters the insertion or performs a step of
it, a thread enters `release`, performs a step of it or is done with the list
it passed on, a handed-over task goes on, an idle task's fields change. -/
inductive Label (R N : Type*) where
  | enterInsert (x : N)
  | insert (x : N) (spurious : Bool)
  | enterRelease (r : R)
  | release (r : R) (spurious : Bool)
  | endPass (r : R)
  | resume (x : N)
  | touch (x : N) (fields : TaskBase N)

variable {R N : Type*} [DecidableEq R] [DecidableEq N]

/-- The state after a step of `insert_current_task_in_waitlist` of `x`. -/
def afterInsert (s : State R N) (x : N) (r : AwaitableData N × TaskBase N × InsertNext N) :
    State R N :=
  { s with
    data := r.1
    task := Function.update s.task x r.2.1
    inserter := Function.update s.inserter x
      (match r.2.2 with
        | .goto pc => .inserting pc
        | .ret true => .listed
        | .ret false => .idle)
    log := match r.2.2 with
      | .goto _ => s.log
      | .ret true => .inserted x :: s.log
      | .ret false => .refused x :: s.log }

/-- The state after a step of `release` by `r`. -/
def afterRelease (s : State R N) (r : R) (next : AwaitableData N × ReleaseNext N) : State R N :=
  { s with
    data := next.1
    releaser := Function.update s.releaser r
      (match next.2 with
        | .goto pc => .releasing pc
        | .ret => .idle
        | .pass taskList => .passing taskList)
    log := match next.2 with
      | .goto _ => s.log
      | .ret => .returned r :: s.log
      | .pass taskList => .passed r taskList :: s.log }

def step (s : State R N) : Label R N → Option (State R N)
  | .enterInsert x =>
      match s.inserter x with
      | .idle => some { s with inserter := Function.update s.inserter x (.inserting .load) }
      | _ => none
  | .insert x spurious =>
      match s.inserter x with
      | .inserting pc => some (afterInsert s x (insertStep x spurious s.data (s.task x) pc))
      | _ => none
  | .enterRelease r =>
      match s.releaser r with
      | .idle => some { s with releaser := Function.update s.releaser r (.releasing .load) }
      | _ => none
  | .release r spurious =>
      match s.releaser r with
      | .releasing pc => some (afterRelease s r (releaseStep spurious s.data pc))
      | _ => none
  | .endPass r =>
      match s.releaser r with
      | .passing _ => some { s with releaser := Function.update s.releaser r .idle }
      | _ => none
  | .resume x =>
      match s.inserter x with
      | .listed =>
          if s.data.isFinished then
            some { s with inserter := Function.update s.inserter x .idle }
          else none
      | _ => none
  | .touch x fields =>
      match s.inserter x with
      | .idle => some { s with task := Function.update s.task x fields }
      | _ => none

/-- The Awaitable as constructed, every task and thread outside, the tasks'
fields arbitrary. -/
def initial (task : N → TaskBase N) : State R N where
  data := {}
  task := task
  inserter := fun _ => .idle
  releaser := fun _ => .idle
  log := []

def machine (R N : Type*) [DecidableEq R] [DecidableEq N] : Machine (State R N) (Label R N) where
  init := fun s => ∃ task, s = initial task
  step := step

section Inversion

variable {s t : State R N} {x : N} {r : R}

theorem step_enterInsert (h : step s (.enterInsert x) = some t) :
    s.inserter x = .idle ∧
      t = { s with inserter := Function.update s.inserter x (.inserting .load) } := by
  simp only [step] at h
  split at h
  next hx =>
    injection h with h
    exact ⟨hx, h.symm⟩
  next => cases h

theorem step_insert {spurious : Bool} (h : step s (.insert x spurious) = some t) :
    ∃ pc, s.inserter x = .inserting pc ∧
      t = afterInsert s x (insertStep x spurious s.data (s.task x) pc) := by
  simp only [step] at h
  split at h
  next pc hx =>
    injection h with h
    exact ⟨pc, hx, h.symm⟩
  next => cases h

theorem step_enterRelease (h : step s (.enterRelease r) = some t) :
    s.releaser r = .idle ∧
      t = { s with releaser := Function.update s.releaser r (.releasing .load) } := by
  simp only [step] at h
  split at h
  next hr =>
    injection h with h
    exact ⟨hr, h.symm⟩
  next => cases h

theorem step_release {spurious : Bool} (h : step s (.release r spurious) = some t) :
    ∃ pc, s.releaser r = .releasing pc ∧
      t = afterRelease s r (releaseStep spurious s.data pc) := by
  simp only [step] at h
  split at h
  next pc hr =>
    injection h with h
    exact ⟨pc, hr, h.symm⟩
  next => cases h

theorem step_endPass (h : step s (.endPass r) = some t) :
    t = { s with releaser := Function.update s.releaser r .idle } := by
  simp only [step] at h
  split at h
  next =>
    injection h with h
    exact h.symm
  next => cases h

/-- A task goes on only when the Awaitable is finished. -/
theorem step_resume (h : step s (.resume x) = some t) :
    s.data.isFinished = true ∧
      t = { s with inserter := Function.update s.inserter x .idle } := by
  simp only [step] at h
  split at h
  next =>
    split at h
    next hf =>
      injection h with h
      exact ⟨hf, h.symm⟩
    next => cases h
  next => cases h

theorem step_touch {fields : TaskBase N} (h : step s (.touch x fields) = some t) :
    s.inserter x = .idle ∧ t = { s with task := Function.update s.task x fields } := by
  simp only [step] at h
  split at h
  next hx =>
    injection h with h
    exact ⟨hx, h.symm⟩
  next => cases h

end Inversion

/-- The intrusive links. -/
def State.link (s : State R N) (x : N) : Option N := (s.task x).next

/-- The tasks whose insertion returned true, newest first. -/
def insertedOf : List (Event R N) → List N
  | [] => []
  | .inserted x :: log => x :: insertedOf log
  | _ :: log => insertedOf log

/-- The lists passed on to `add_waiting_list_to_running`, newest first. -/
def passedOf : List (Event R N) → List (R × Option N)
  | [] => []
  | .passed r taskList :: log => (r, taskList) :: passedOf log
  | _ :: log => passedOf log

/-! ## §2. The invariant. -/

/-- An insertion works with a head it read while the Awaitable was not
finished, and at the compare-exchange its link is that head. -/
def InsertOk (link : Option N) : InsertPc N → Prop
  | .setState aw | .setContext aw => aw.isFinished = false
  | .cas aw => aw.isFinished = false ∧ link = aw.head
  | .load | .undoState | .undoContext => True

/-- Likewise for a release at its compare-exchange. -/
def ReleaseOk : ReleasePc N → Prop
  | .cas aw => aw.isFinished = false
  | .load => True

structure Inv (s : State R N) : Prop where
  inserting : ∀ x pc, s.inserter x = .inserting pc → InsertOk (s.link x) pc
  releasing : ∀ r pc, s.releaser r = .releasing pc → ReleaseOk pc
  nodup : (insertedOf s.log).Nodup
  /-- Until it is finished, the word heads the list of all inserted tasks. -/
  waitlist : s.data.isFinished = false →
    Seg s.link s.data.head (insertedOf s.log) none ∧
      (∀ x ∈ insertedOf s.log, s.inserter x = .listed) ∧ passedOf s.log = []

omit [DecidableEq R] [DecidableEq N] in
theorem inv_initial (task : N → TaskBase N) : Inv (initial (R := R) task) where
  inserting := by simp [initial]
  releasing := by simp [initial]
  nodup := by simp [initial, insertedOf]
  waitlist := by simp [initial, insertedOf, passedOf]

omit [DecidableEq R] in
/-- A task outside the list changes its own fields and its own control point,
and nothing is inserted or passed on. -/
theorem inv_move {s : State R N} (h : Inv s) {x : N} (hx : s.inserter x ≠ .listed)
    (f : TaskBase N) (at_ : Inserter N) (log : List (Event R N))
    (hins : insertedOf log = insertedOf s.log) (hpassed : passedOf log = passedOf s.log)
    (hok : ∀ pc, at_ = .inserting pc → InsertOk f.next pc) :
    Inv { s with task := Function.update s.task x f
                 inserter := Function.update s.inserter x at_
                 log := log } where
  inserting := by
    intro y pc hy
    by_cases hyx : y = x
    · subst hyx
      simpa [State.link] using hok pc (by simpa using hy)
    · simpa [State.link, hyx] using h.inserting y pc (by simpa [hyx] using hy)
  releasing := h.releasing
  nodup := by rw [hins]; exact h.nodup
  waitlist := by
    intro hopen
    obtain ⟨hseg, hlisted, hnone⟩ := h.waitlist hopen
    have hnot : x ∉ insertedOf s.log := fun hmem => hx (hlisted x hmem)
    rw [hins, hpassed]
    refine ⟨hseg.congr (fun y hy => ?_), fun y hy => ?_, hnone⟩
    · have : y ≠ x := fun hyx => hnot (hyx ▸ hy)
      simp [State.link, this]
    · have : y ≠ x := fun hyx => hnot (hyx ▸ hy)
      simpa [this] using hlisted y hy

omit [DecidableEq R] in
/-- The compare-exchange that inserts `x`. -/
theorem inv_inserted {s : State R N} (h : Inv s) {x : N} {aw : AwaitableData N}
    (hx : s.inserter x = .inserting (.cas aw)) (hdata : s.data = aw) :
    Inv { s with data := { head := some x, isFinished := false }
                 inserter := Function.update s.inserter x .listed
                 log := .inserted x :: s.log } := by
  obtain ⟨hopen, hlink⟩ := h.inserting x _ hx
  subst hdata
  obtain ⟨hseg, hlisted, hnone⟩ := h.waitlist hopen
  have hnot : x ∉ insertedOf s.log := fun hmem => by simp [hlisted x hmem] at hx
  constructor
  · intro y pc hy
    have hyx : y ≠ x := by rintro rfl; simp at hy
    exact h.inserting y pc (by simpa [hyx] using hy)
  · exact h.releasing
  · exact List.nodup_cons.mpr ⟨hnot, h.nodup⟩
  · refine fun _ => ⟨⟨rfl, ?_⟩, fun y hy => ?_, hnone⟩
    · show Seg s.link (s.link x) _ none
      rw [hlink]
      exact hseg
    · by_cases hyx : y = x
      · simp [hyx]
      · have : y ∈ insertedOf s.log := by simpa [insertedOf, hyx] using hy
        simpa [hyx] using hlisted y this

theorem inv_insert {s t : State R N} (h : Inv s) {x : N} {spurious : Bool}
    (hs : step s (.insert x spurious) = some t) : Inv t := by
  obtain ⟨pc, hx, rfl⟩ := step_insert hs
  have hok := h.inserting x pc hx
  have hout : s.inserter x ≠ .listed := by simp [hx]
  cases pc with
  | load =>
      simp only [insertStep]
      by_cases hf : s.data.isFinished = true
      · simpa [afterInsert, hf] using
          inv_move h hout (s.task x) .idle (.refused x :: s.log) rfl rfl (by simp)
      · simpa [afterInsert, hf] using
          inv_move h hout (s.task x) (.inserting (.setState s.data)) s.log rfl rfl
            (by simpa [InsertOk] using hf)
  | setState aw =>
      exact inv_move h hout _ (.inserting (.setContext aw)) s.log rfl rfl
        (by rintro pc ⟨⟩; exact hok)
  | setContext aw =>
      exact inv_move h hout _ (.inserting (.cas aw)) s.log rfl rfl
        (by rintro pc ⟨⟩; exact ⟨hok, rfl⟩)
  | cas aw =>
      simp only [insertStep]
      split
      next hcas => simpa [afterInsert] using inv_inserted h hx hcas.1
      next hcas =>
        split
        next hf =>
          simpa [afterInsert] using
            inv_move h hout (s.task x) (.inserting .undoState) s.log rfl rfl (by simp [InsertOk])
        next hf =>
          -- the loop goes round with the head it has just read
          exact inv_move h hout _ (.inserting (.cas s.data)) s.log rfl rfl
            (by rintro pc ⟨⟩; exact ⟨by simpa using hf, rfl⟩)
  | undoState =>
      exact inv_move h hout _ (.inserting .undoContext) s.log rfl rfl (by rintro pc ⟨⟩; trivial)
  | undoContext =>
      exact inv_move h hout _ .idle (.refused x :: s.log) rfl rfl (by simp)

omit [DecidableEq N] in
/-- A releasing thread changes its own control point only. -/
theorem inv_releaser {s : State R N} (h : Inv s) {r : R} (at_ : Releaser N)
    (log : List (Event R N)) (hins : insertedOf log = insertedOf s.log)
    (hpassed : passedOf log = passedOf s.log)
    (hok : ∀ pc, at_ = .releasing pc → ReleaseOk pc) :
    Inv { s with releaser := Function.update s.releaser r at_, log := log } where
  inserting := h.inserting
  releasing := by
    intro r' pc hr'
    by_cases hrr : r' = r
    · subst hrr; exact hok pc (by simpa using hr')
    · exact h.releasing r' pc (by simpa [hrr] using hr')
  nodup := by rw [hins]; exact h.nodup
  waitlist := by rw [hins, hpassed]; exact h.waitlist

theorem inv_release {s t : State R N} (h : Inv s) {r : R} {spurious : Bool}
    (hs : step s (.release r spurious) = some t) : Inv t := by
  obtain ⟨pc, hr, rfl⟩ := step_release hs
  cases pc with
  | load =>
      simp only [releaseStep]
      by_cases hf : s.data.isFinished = true
      · simpa [afterRelease, hf] using
          inv_releaser h (r := r) .idle (.returned r :: s.log) rfl rfl (by simp)
      · simpa [afterRelease, hf] using
          inv_releaser h (r := r) (.releasing (.cas s.data)) s.log rfl rfl
            (by simpa [ReleaseOk] using hf)
  | cas aw =>
      simp only [releaseStep]
      split
      next hcas =>
        -- the finishing compare-exchange: nothing is promised about the list any more
        refine ⟨h.inserting, ?_, h.nodup, by simp [afterRelease]⟩
        intro r' pc hr'
        have hrr : r' ≠ r := by rintro rfl; simp [afterRelease] at hr'
        exact h.releasing r' pc (by simpa [afterRelease, hrr] using hr')
      next =>
        split
        next =>
          exact inv_releaser h .idle (.returned r :: s.log) rfl rfl (by simp)
        next hf =>
          exact inv_releaser h (.releasing (.cas s.data)) s.log rfl rfl
            (by rintro pc ⟨⟩; simpa [ReleaseOk] using hf)

theorem inv_step (s : State R N) (l : Label R N) (t : State R N) (h : Inv s)
    (hs : step s l = some t) : Inv t := by
  cases l with
  | insert x spurious => exact inv_insert h hs
  | release r spurious => exact inv_release h hs
  | enterInsert x =>
      obtain ⟨hx, rfl⟩ := step_enterInsert hs
      simpa using inv_move h (x := x) (by simp [hx]) (s.task x) (.inserting .load) s.log rfl rfl
        (by simp [InsertOk])
  | enterRelease r =>
      obtain ⟨-, rfl⟩ := step_enterRelease hs
      exact inv_releaser h (.releasing .load) s.log rfl rfl (by simp [ReleaseOk])
  | endPass r =>
      obtain rfl := step_endPass hs
      exact inv_releaser h .idle s.log rfl rfl (by simp)
  | resume x =>
      obtain ⟨hf, rfl⟩ := step_resume hs
      -- the word is finished, so the list need not be one any more
      refine ⟨fun y pc hy => ?_, h.releasing, h.nodup, fun hopen => by simp [hf] at hopen⟩
      have hyx : y ≠ x := by rintro rfl; simp at hy
      exact h.inserting y pc (by simpa [hyx] using hy)
  | touch x fields =>
      obtain ⟨hx, rfl⟩ := step_touch hs
      have := inv_move h (x := x) (by simp [hx]) fields .idle s.log rfl rfl (by simp)
      rwa [← hx, Function.update_eq_self] at this

theorem inv_reachable {s : State R N} (h : (machine R N).Reachable s) : Inv s :=
  h.invariant (by rintro s ⟨task, rfl⟩; exact inv_initial task)
    (fun s l t hi _ hs => inv_step s l t hi hs)

/-! ## §3. The hand-over. -/

/-- A finished Awaitable stays finished, and a step on it inserts nothing and
passes nothing on. -/
theorem finished_step {s t : State R N} {l : Label R N} (h : Inv s)
    (hf : s.data.isFinished = true) (hs : step s l = some t) :
    t.data.isFinished = true ∧ insertedOf t.log = insertedOf s.log ∧
      passedOf t.log = passedOf s.log := by
  cases l with
  | insert x spurious =>
      obtain ⟨pc, hx, rfl⟩ := step_insert hs
      have hok := h.inserting x pc hx
      cases pc with
      | load => simp [afterInsert, insertStep, hf, insertedOf, passedOf]
      | cas aw =>
          -- it expects an open word, so the compare-exchange fails
          have hne : s.data ≠ aw := by
            rintro rfl
            simp [hok.1] at hf
          simp [afterInsert, insertStep, hne, hf]
      | setState aw | setContext aw | undoState | undoContext => exact ⟨hf, rfl, rfl⟩
  | release r spurious =>
      obtain ⟨pc, hr, rfl⟩ := step_release hs
      have hok := h.releasing r pc hr
      cases pc with
      | load => simp [afterRelease, releaseStep, hf, insertedOf, passedOf]
      | cas aw =>
          have hne : s.data ≠ aw := by
            rintro rfl
            simp [ReleaseOk, hf] at hok
          simp [afterRelease, releaseStep, hne, hf, insertedOf, passedOf]
  | enterInsert x =>
      obtain ⟨-, rfl⟩ := step_enterInsert hs
      exact ⟨hf, rfl, rfl⟩
  | enterRelease r =>
      obtain ⟨-, rfl⟩ := step_enterRelease hs
      exact ⟨hf, rfl, rfl⟩
  | endPass r =>
      obtain rfl := step_endPass hs
      exact ⟨hf, rfl, rfl⟩
  | resume x =>
      obtain ⟨-, rfl⟩ := step_resume hs
      exact ⟨hf, rfl, rfl⟩
  | touch x fields =>
      obtain ⟨-, rfl⟩ := step_touch hs
      exact ⟨hf, rfl, rfl⟩

theorem finished_run {s t : State R N} (hs : (machine R N).Reachable s)
    (hf : s.data.isFinished = true) (h : (machine R N).Run Machine.anyStep s t) :
    t.data.isFinished = true ∧ insertedOf t.log = insertedOf s.log ∧
      passedOf t.log = passedOf s.log := by
  refine (h.preserves (I := fun u => Inv u ∧ u.data.isFinished = true ∧
    insertedOf u.log = insertedOf s.log ∧ passedOf u.log = passedOf s.log) ?_
    ⟨inv_reachable hs, hf, rfl, rfl⟩).2
  rintro u l v ⟨hu, huf, hins, hpassed⟩ _ hstep
  obtain ⟨hvf, hvins, hvpassed⟩ := finished_step hu huf hstep
  exact ⟨inv_step u l v hu hstep, hvf, hvins.trans hins, hvpassed.trans hpassed⟩

/-- An insertion at its compare-exchange on a finished Awaitable returns false. -/
theorem refused_of_finished {s : State R N} (h : Inv s) (hf : s.data.isFinished = true) {x : N}
    {aw : AwaitableData N} (hx : s.inserter x = .inserting (.cas aw)) (a b c : Bool) :
    ∃ t, (machine R N).replay s [.insert x a, .insert x b, .insert x c] = some t ∧
      t.inserter x = .idle ∧ t.log = .refused x :: s.log := by
  have hne : s.data ≠ aw := by
    rintro rfl
    simp [(h.inserting x _ hx).1] at hf
  simp [Machine.replay, machine, step, hx, insertStep, afterInsert, hne, hf]

/-- What the step from `s` to `t`, in which `r` takes the list that starts at
`taskList`, hands over. -/
structure ExactHandover (s t : State R N) (r : R) (taskList : Option N) : Prop where
  /-- The list is the tasks inserted so far, newest first. -/
  newest_first : Seg t.link taskList (insertedOf s.log) none
  /-- Each of them exactly once. -/
  once : (insertedOf s.log).Nodup
  /-- No list was passed on before. -/
  first : passedOf s.log = []
  /-- From then on nothing is inserted and no other list is passed on. -/
  closed : ∀ u, (machine R N).Run Machine.anyStep t u → u.data.isFinished = true ∧
    insertedOf u.log = insertedOf s.log ∧ passedOf u.log = [(r, taskList)]
  /-- A compare-exchange that comes later makes its insertion return false. -/
  refused : ∀ u, (machine R N).Run Machine.anyStep t u →
    ∀ x aw, u.inserter x = .inserting (.cas aw) → ∀ a b c,
      ∃ v, (machine R N).replay u [.insert x a, .insert x b, .insert x c] = some v ∧
        v.inserter x = .idle ∧ v.log = .refused x :: u.log

/-- **Exactly-once hand-over.**  In every reachable state `is_finished` does
not go back to false, and a step of `release` that passes a list on hands over
exactly the inserted tasks. -/
theorem handover_exact (s : State R N) (hs : (machine R N).Reachable s) :
    (∀ u, s.data.isFinished = true → (machine R N).Run Machine.anyStep s u →
      u.data.isFinished = true) ∧
    ∀ r spurious t taskList, step s (.release r spurious) = some t →
      t.releaser r = .passing taskList → ExactHandover s t r taskList := by
  refine ⟨fun u hf hrun => (finished_run hs hf hrun).1, ?_⟩
  intro r spurious t taskList hstep hpass
  have ht : (machine R N).Reachable t :=
    .step hs trivial (show (machine R N).step s (.release r spurious) = some t from hstep)
  have hinv := inv_reachable hs
  obtain ⟨pc, hr, hstep⟩ := step_release hstep
  have hok := hinv.releasing r pc hr
  cases pc with
  | load =>
      subst hstep
      by_cases hf : s.data.isFinished = true <;> simp [afterRelease, releaseStep, hf] at hpass
  | cas aw =>
      by_cases hcas : s.data = aw ∧ spurious = false
      · -- the compare-exchange that finishes the Awaitable takes the whole list
        obtain ⟨rfl, rfl⟩ := hcas
        obtain ⟨hseg, _, hnone⟩ := hinv.waitlist hok
        have htl : s.data.head = taskList := by
          subst hstep
          simpa [afterRelease, releaseStep] using hpass
        subst htl
        have htf : t.data.isFinished = true := by subst hstep; simp [afterRelease, releaseStep]
        have hlog : t.log = .passed r s.data.head :: s.log := by
          subst hstep
          simp [afterRelease, releaseStep]
        refine ⟨by subst hstep; exact hseg, hinv.nodup, hnone, fun u hu => ?_, ?_⟩
        · obtain ⟨huf, hins, hpassed⟩ := finished_run ht htf hu
          rw [hlog] at hins hpassed
          exact ⟨huf, hins, by rw [hpassed, passedOf, hnone]⟩
        · intro u hu x aw hx a b c
          exact refused_of_finished (inv_reachable (ht.run hu)) (finished_run ht htf hu).1 hx a b c
      · -- any other outcome passes nothing on
        subst hstep
        by_cases hf : s.data.isFinished = true <;>
          simp [afterRelease, releaseStep, hcas, hf] at hpass

/-- Two tasks insert themselves, then a thread reads the word. -/
def twoWaiters : List (Label Unit (Fin 2)) :=
  [.enterInsert 0, .enterInsert 1, .insert 0 false, .insert 1 false, .insert 0 false,
   .insert 1 false, .insert 0 false, .insert 1 false, .insert 0 false, .insert 1 false,
   .insert 1 false, .enterRelease (), .release () false]

theorem handover_exact_twoWaiters :
    ∃ (s t : State Unit (Fin 2)), insertedOf s.log = [1, 0] ∧ ExactHandover s t () (some 1) := by
  obtain ⟨s, hs, hp⟩ := Machine.exists_reach_of_replay (machine Unit (Fin 2)) twoWaiters
    (fun s => insertedOf s.log = [1, 0] ∧
      (step s (.release () false)).any (fun t =>
        match t.releaser () with
        | .passing taskList => taskList = some 1
        | _ => false))
    ⟨fun _ => {}, rfl⟩ (by decide)
  simp only [Bool.decide_and, Bool.and_eq_true, decide_eq_true_eq, Option.any_eq_true] at hp
  obtain ⟨hins, t, hstep, ht⟩ := hp
  refine ⟨s, t, hins, (handover_exact s hs).2 () false t (some 1) hstep ?_⟩
  split at ht
  next taskList htl => rw [htl, of_decide_eq_true ht]
  next => cases ht

end Handover

end Alterstack
