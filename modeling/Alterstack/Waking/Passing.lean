/-
  Alterstack.Waking.Passing — what a call of `add_waiting_list_to_running` does
  with its list.

  The first loop unlinks the tasks of the list one after the other; a task that
  it delays goes onto a second list through the link it has just cleared, while
  the tasks behind it are still linked by theirs.  `Visited` has one
  constructor for each way a round of the loop can go, and the invariant says
  at every control point which rounds are over, which tasks are still linked to
  `task_list`, and which ones to `null_context_tasks`.

  Main results:
    * `inv_reach` — the invariant of the call;
    * `passedOn_of_reach` — when the call returns, every task has been passed
      on exactly once, and the delayed ones last.
-/
import Mathlib.Data.List.Forall2
import Mathlib.Data.List.Perm.Basic
import Alterstack.Waking.Code

namespace Alterstack

namespace Waking

open Lib (Machine Seg)

variable {N : Type*}

/-! ## §1. The rounds of the two loops. -/

/-- The rounds of the first loop: the tasks it has visited, in order; the ones
that it has delayed, the last one first; what it has done. -/
inductive Visited (isThreadBound : N → Bool) : List N → List N → List (Event N) → Prop
  | start : Visited isThreadBound [] [] []
  | bound {visited delayed : List N} {log : List (Event N)} {x : N}
      (h : Visited isThreadBound visited delayed log) (hx : isThreadBound x = true) :
      Visited isThreadBound (visited ++ [x]) delayed (log ++ [.stored x .running, .notified x])
  | ready {visited delayed : List N} {log : List (Event N)} {x : N} {context : Context N}
      (h : Visited isThreadBound visited delayed log) (hx : isThreadBound x = false)
      (hcontext : context ≠ .null) :
      Visited isThreadBound (visited ++ [x]) delayed
        (log ++ [.stored x .running, .enqueued x none context])
  | delayed {visited delayed : List N} {log : List (Event N)} {x : N}
      (h : Visited isThreadBound visited delayed log) (hx : isThreadBound x = false) :
      Visited isThreadBound (visited ++ [x]) (x :: delayed)
        (log ++ [.stored x .running, .delayed x])

/-- A round of the second loop enqueues one delayed task. -/
def Late (x : N) (e : Event N) : Prop := ∃ context, context ≠ .null ∧ e = .enqueued x none context

variable {isThreadBound : N → Bool} {l visited delayed rest : List N}
  {log early late : List (Event N)} {x y : N} {e : Event N}

namespace Visited

/-- Every visited task has been made Running, in order. -/
theorem stores (h : Visited isThreadBound visited delayed log) :
    stores log = visited.map fun x => (x, .running) := by
  induction h with
  | start => rfl
  | bound _ _ ih => simp [ih]
  | ready _ _ _ ih => simp [ih]
  | delayed _ _ ih => simp [ih]

theorem notifications (h : Visited isThreadBound visited delayed log) :
    notifications log = visited.filter isThreadBound := by
  induction h with
  | start => rfl
  | bound _ hx ih => simp [ih, hx]
  | ready _ hx _ ih => simp [ih, hx]
  | delayed _ hx ih => simp [ih, hx]

theorem delays (h : Visited isThreadBound visited delayed log) :
    delays log = delayed.reverse := by
  induction h with
  | start => rfl
  | bound _ _ ih => simp [ih]
  | ready _ _ _ ih => simp [ih]
  | delayed _ _ ih => simp [ih]

/-- Every visited unbound task is enqueued or delayed. -/
theorem unbound (h : Visited isThreadBound visited delayed log) :
    (enqueues log ++ delayed).Perm (visited.filter fun x => !isThreadBound x) := by
  induction h with
  | start => exact .refl _
  | bound _ hx ih => simpa [hx] using ih
  | @ready visited delayed log x context _ hx _ ih =>
      have hlog : enqueues (log ++ [.stored x .running, .enqueued x none context]) =
          enqueues log ++ [x] := by simp
      have hvisited : (visited ++ [x]).filter (fun x => !isThreadBound x) =
          visited.filter (fun x => !isThreadBound x) ++ [x] := by simp [hx]
      rw [hlog, hvisited, List.append_assoc]
      exact (List.Perm.append_left _ List.perm_append_comm).trans
        (by simpa using ih.append_right [x])
  | @delayed visited delayed log x _ hx ih =>
      have hlog : enqueues (log ++ [.stored x .running, .delayed x]) = enqueues log := by
        simp [enqueues]
      have hvisited : (visited ++ [x]).filter (fun x => !isThreadBound x) =
          visited.filter (fun x => !isThreadBound x) ++ [x] := by simp [hx]
      rw [hlog, hvisited]
      exact List.perm_middle.trans ((ih.cons x).trans (List.perm_append_singleton x _).symm)

theorem enqueued (h : Visited isThreadBound visited delayed log) {task : N} {next : Option N}
    {context : Context N} (he : .enqueued task next context ∈ log) :
    next = none ∧ context ≠ .null := by
  induction h with
  | start => cases he
  | bound _ _ ih => exact ih (by simpa using he)
  | delayed _ _ ih => exact ih (by simpa using he)
  | ready _ _ hcontext ih =>
      rcases List.mem_append.mp he with he | he
      · exact ih he
      · obtain ⟨-, rfl, rfl⟩ : task = _ ∧ next = none ∧ context = _ := by simpa using he
        exact ⟨rfl, hcontext⟩

theorem length (h : Visited isThreadBound visited delayed log) :
    log.length = 2 * visited.length ∧ delayed.length ≤ visited.length := by
  induction h with
  | start => exact ⟨rfl, Nat.le_refl _⟩
  | bound _ _ ih | ready _ _ _ ih | delayed _ _ ih =>
      simp only [List.length_append, List.length_cons, List.length_nil]
      omega

/-- The delayed tasks are visited and unbound. -/
theorem mem_delayed (h : Visited isThreadBound visited delayed log) (hx : x ∈ delayed) :
    x ∈ visited ∧ isThreadBound x = false := by
  have hmem := h.unbound.mem_iff.mp (List.mem_append_right _ hx)
  simpa using hmem

/-- No delayed task has been enqueued yet. -/
theorem not_enqueued (h : Visited isThreadBound visited delayed log) (hnodup : visited.Nodup) :
    (enqueues log ++ delayed).Nodup :=
  h.unbound.nodup_iff.mpr (hnodup.filter _)

end Visited

/-! ## §2. Whom the call has passed on. -/

theorem passed_of_bound (hx : isThreadBound x = true) :
    Passed isThreadBound log x ↔ x ∈ (stores log).map Prod.fst := by simp [Passed, hx]

theorem passed_of_unbound (hx : isThreadBound x = false) :
    Passed isThreadBound log x ↔ x ∈ enqueues log := by simp [Passed, hx]

theorem Visited.not_passed (h : Visited isThreadBound visited delayed log) (hx : x ∉ visited) :
    ¬ Passed isThreadBound log x := by
  cases hb : isThreadBound x with
  | true =>
      rw [passed_of_bound hb, h.stores]
      simpa using hx
  | false =>
      rw [passed_of_unbound hb]
      intro hmem
      have := h.unbound.mem_iff.mp (List.mem_append_left _ hmem)
      exact hx (List.mem_filter.mp this).1

theorem Visited.not_passed_of_delayed (h : Visited isThreadBound visited delayed log)
    (hnodup : visited.Nodup) (hx : x ∈ delayed) : ¬ Passed isThreadBound log x := by
  rw [passed_of_unbound (h.mem_delayed hx).2]
  intro hmem
  exact List.disjoint_of_nodup_append (h.not_enqueued hnodup) hmem hx

/-- The store to `m_state` passes on its own task only, and only if it is
bound. -/
theorem passed_stored {state : TaskState} (hx : x ≠ y ∨ isThreadBound x = false) :
    Passed isThreadBound (log ++ [.stored y state]) x ↔ Passed isThreadBound log x := by
  cases hb : isThreadBound x with
  | true =>
      have hne : x ≠ y := hx.resolve_right (by simp [hb])
      simp [passed_of_bound hb, hne]
  | false => simp [passed_of_unbound hb]

theorem passed_stored_delayed {state : TaskState} (hx : x ≠ y ∨ isThreadBound x = false) :
    Passed isThreadBound (log ++ [.stored y state, .delayed y]) x ↔
      Passed isThreadBound log x := by
  cases hb : isThreadBound x with
  | true =>
      have hne : x ≠ y := hx.resolve_right (by simp [hb])
      simp [passed_of_bound hb, hne]
  | false => simp [passed_of_unbound hb]

/-! ## §3. The invariant. -/

/-- The first loop is at `task`: the rounds before it are over, the tasks
behind it are linked to `taskList`, the delayed ones to `nullContextTasks`. -/
def InList (isThreadBound : N → Bool) (l : List N) (link : N → Option N) (task : N)
    (taskList nullContextTasks : Option N) (log : List (Event N)) : Prop :=
  ∃ visited delayed rest, Visited isThreadBound visited delayed log ∧
    l = visited ++ task :: rest ∧ Seg link taskList rest none ∧
    Seg link nullContextTasks delayed none

/-- The second loop is at `task`: the first loop is over, the tasks it delayed
before `task` are enqueued, the others are linked to `nullContextTasks`. -/
def InDelayed (isThreadBound : N → Bool) (l : List N) (link : N → Option N) (task : N)
    (nullContextTasks : Option N) (log : List (Event N)) : Prop :=
  ∃ early late done rest, Visited isThreadBound l (done ++ task :: rest) early ∧
    List.Forall₂ Late done late ∧ log = early ++ late ∧ Seg link nullContextTasks rest none

/-- Both loops are over. -/
def Done (isThreadBound : N → Bool) (l : List N) (log : List (Event N)) : Prop :=
  ∃ early late delayed, Visited isThreadBound l delayed early ∧ List.Forall₂ Late delayed late ∧
    log = early ++ late

/-- What is true at the control points. -/
def Inv (isThreadBound : N → Bool) (l : List N) (s : State N) : Prop :=
  match s.pc with
  | .readNext task nullContextTasks =>
      InList isThreadBound l s.link task (s.link task) nullContextTasks s.log
  | .clearNext task taskList nullContextTasks =>
      InList isThreadBound l s.link task taskList nullContextTasks s.log
  | .setState task taskList nullContextTasks =>
      s.link task = none ∧ InList isThreadBound l s.link task taskList nullContextTasks s.log
  | .notify task taskList nullContextTasks =>
      isThreadBound task = true ∧ ∃ log, s.log = log ++ [.stored task .running] ∧
        InList isThreadBound l s.link task taskList nullContextTasks log
  | .loadContext task taskList nullContextTasks =>
      isThreadBound task = false ∧ s.link task = none ∧
        ∃ log, s.log = log ++ [.stored task .running] ∧
          InList isThreadBound l s.link task taskList nullContextTasks log
  | .delay task taskList nullContextTasks =>
      isThreadBound task = false ∧
        ∃ log, s.log = log ++ [.stored task .running, .delayed task] ∧
          InList isThreadBound l s.link task taskList nullContextTasks log
  | .enqueue task taskList nullContextTasks =>
      isThreadBound task = false ∧ s.link task = none ∧ (s.task task).context ≠ .null ∧
        ∃ log, s.log = log ++ [.stored task .running] ∧
          InList isThreadBound l s.link task taskList nullContextTasks log
  | .delayedReadNext task => InDelayed isThreadBound l s.link task (s.link task) s.log
  | .delayedClearNext task nullContextTasks =>
      InDelayed isThreadBound l s.link task nullContextTasks s.log
  | .whileContext task nullContextTasks | .ifContext task nullContextTasks
  | .sleepContext task nullContextTasks =>
      s.link task = none ∧ InDelayed isThreadBound l s.link task nullContextTasks s.log
  | .delayedEnqueue task nullContextTasks =>
      s.link task = none ∧ (s.task task).context ≠ .null ∧
        InDelayed isThreadBound l s.link task nullContextTasks s.log
  | .returned => Done isThreadBound l s.log

section Rounds

variable {link link' : N → Option N} {task : N} {taskList nullContextTasks : Option N}

/-- Links matter only at tasks that have not been passed on. -/
theorem InList.congr (h : InList isThreadBound l link task taskList nullContextTasks log)
    (hl : l.Nodup)
    (hlink : ∀ x ∈ l, x ≠ task → ¬ Passed isThreadBound log x → link' x = link x) :
    InList isThreadBound l link' task taskList nullContextTasks log := by
  obtain ⟨visited, delayed, rest, hvisited, rfl, hrest, hdelayed⟩ := h
  have hnodup : visited.Nodup := hl.of_append_left
  have htask : task ∉ rest := (List.nodup_cons.mp hl.of_append_right).1
  have hdisj : ∀ x ∈ task :: rest, x ∉ visited := fun x hx hv =>
    List.disjoint_of_nodup_append hl hv hx
  refine ⟨visited, delayed, rest, hvisited, rfl, hrest.congr fun x hx => ?_,
    hdelayed.congr fun x hx => ?_⟩
  · refine hlink x (by simp [hx]) (fun hxt => htask (hxt ▸ hx)) (hvisited.not_passed ?_)
    exact hdisj x (List.mem_cons_of_mem _ hx)
  · have hmem := (hvisited.mem_delayed hx).1
    refine hlink x (by simp [hmem]) (fun hxt => hdisj task (by simp) (hxt ▸ hmem)) ?_
    exact hvisited.not_passed_of_delayed hnodup hx

theorem InList.mem (h : InList isThreadBound l link task taskList nullContextTasks log) :
    task ∈ l := by
  obtain ⟨visited, delayed, rest, -, rfl, -, -⟩ := h
  simp

theorem InList.not_passed (h : InList isThreadBound l link task taskList nullContextTasks log)
    (hl : l.Nodup) : ¬ Passed isThreadBound log task := by
  obtain ⟨visited, delayed, rest, hvisited, rfl, -, -⟩ := h
  refine hvisited.not_passed fun hmem => ?_
  exact List.disjoint_of_nodup_append hl hmem (by simp)

/-- The second loop enqueues, in order, what it takes from its list. -/
theorem enqueues_late {done : List N} (h : List.Forall₂ Late done late) :
    enqueues late = done := by
  induction h with
  | nil => rfl
  | cons hx _ ih =>
      obtain ⟨context, -, rfl⟩ := hx
      simp [ih]

/-- The delayed tasks that the second loop has not come to. -/
theorem Visited.not_passed_of_rest {done : List N}
    (hvisited : Visited isThreadBound l (done ++ rest) early) (hl : l.Nodup)
    (hlate : List.Forall₂ Late done late) (hx : x ∈ rest) :
    ¬ Passed isThreadBound (early ++ late) x := by
  have hnodup := hvisited.not_enqueued hl
  rw [passed_of_unbound (hvisited.mem_delayed (List.mem_append_right _ hx)).2, enqueues_append,
    enqueues_late hlate]
  rw [← List.append_assoc] at hnodup
  exact fun hmem => List.disjoint_of_nodup_append hnodup hmem hx

theorem InDelayed.congr (h : InDelayed isThreadBound l link task nullContextTasks log)
    (hl : l.Nodup)
    (hlink : ∀ x ∈ l, x ≠ task → ¬ Passed isThreadBound log x → link' x = link x) :
    InDelayed isThreadBound l link' task nullContextTasks log := by
  obtain ⟨early, late, done, rest, hvisited, hlate, rfl, hrest⟩ := h
  refine ⟨early, late, done, rest, hvisited, hlate, rfl, hrest.congr fun x hx => ?_⟩
  have htask : task ∉ rest :=
    (List.nodup_cons.mp (hvisited.not_enqueued hl).of_append_right.of_append_right).1
  refine hlink x (hvisited.mem_delayed (by simp [hx])).1 (fun hxt => htask (hxt ▸ hx)) ?_
  exact hvisited.not_passed_of_rest hl hlate (List.mem_cons_of_mem _ hx)

theorem InDelayed.mem (h : InDelayed isThreadBound l link task nullContextTasks log) :
    task ∈ l ∧ isThreadBound task = false := by
  obtain ⟨early, late, done, rest, hvisited, -⟩ := h
  exact hvisited.mem_delayed (by simp)

theorem InDelayed.not_passed (h : InDelayed isThreadBound l link task nullContextTasks log)
    (hl : l.Nodup) : ¬ Passed isThreadBound log task := by
  obtain ⟨early, late, done, rest, hvisited, hlate, rfl, -⟩ := h
  exact hvisited.not_passed_of_rest hl hlate (by simp)

end Rounds

/-- The head of the second loop. -/
theorem inv_delayedLoop {s : State N} (done : List N) (nullContextTasks : Option N)
    (hvisited : Visited isThreadBound l (done ++ rest) early)
    (hlate : List.Forall₂ Late done late) (hlog : s.log = early ++ late)
    (hrest : Seg s.link nullContextTasks rest none) (hpc : s.pc = delayedLoop nullContextTasks) :
    Inv isThreadBound l s := by
  cases rest with
  | nil =>
      obtain rfl : nullContextTasks = none := hrest
      simp only [Inv, hpc, delayedLoop]
      exact ⟨early, late, done, by simpa using hvisited, hlate, hlog⟩
  | cons task rest =>
      obtain ⟨rfl, hrest⟩ := hrest
      simp only [Inv, hpc, delayedLoop]
      exact ⟨early, late, done, rest, hvisited, hlate, hlog, hrest⟩

/-- The head of the first loop. -/
theorem inv_listLoop {s : State N} (taskList nullContextTasks : Option N)
    (hvisited : Visited isThreadBound visited delayed s.log) (hl : l = visited ++ rest)
    (hrest : Seg s.link taskList rest none) (hdelayed : Seg s.link nullContextTasks delayed none)
    (hpc : s.pc = listLoop nullContextTasks taskList) : Inv isThreadBound l s := by
  cases rest with
  | nil =>
      obtain rfl : taskList = none := hrest
      obtain rfl : l = visited := by simpa using hl
      exact inv_delayedLoop [] nullContextTasks hvisited .nil (by simp) hdelayed hpc
  | cons task rest =>
      obtain ⟨rfl, hrest⟩ := hrest
      simp only [Inv, hpc, listLoop]
      exact ⟨visited, delayed, rest, hvisited, hl, hrest, hdelayed⟩

/-! ## §4. The steps keep it. -/

section Steps

variable [DecidableEq N] {s s' : State N}

@[simp] theorem link_setNext (s : State N) (x : N) (next : Option N) :
    (s.setNext x next).link = Function.update s.link x next := by
  funext y
  by_cases hy : y = x <;> simp [State.setNext, State.setTask, State.link, hy]

@[simp] theorem link_setState (s : State N) (x : N) (state : TaskState) :
    (s.setTask x { s.task x with state := state }).link = s.link := by
  funext y
  by_cases hy : y = x <;> simp [State.setTask, State.link, hy]

/-- **A step of the call keeps the invariant.** -/
theorem Inv.runStep (hl : l.Nodup) (hs : Inv isThreadBound l s)
    (h : runStep isThreadBound s = some s') : Inv isThreadBound l s' := by
  cases hpc : s.pc with
  | readNext task nullContextTasks =>
      simp only [Inv, hpc] at hs
      simp only [Waking.runStep, hpc] at h
      injection h with h
      subst h
      exact hs
  | clearNext task taskList nullContextTasks =>
      simp only [Inv, hpc] at hs
      simp only [Waking.runStep, hpc] at h
      injection h with h
      subst h
      show (s.setNext task none).link task = none ∧ InList isThreadBound l
        (s.setNext task none).link task taskList nullContextTasks s.log
      rw [link_setNext]
      exact ⟨by simp, hs.congr hl fun x _ hx _ => by simp [hx]⟩
  | setState task taskList nullContextTasks =>
      simp only [Inv, hpc] at hs
      obtain ⟨hnext, hs⟩ := hs
      simp only [Waking.runStep, hpc] at h
      injection h with h
      have hlink : s'.link = s.link := by
        subst h
        exact link_setState s task .running
      have hlog : s'.log = s.log ++ [.stored task .running] := by
        subst h
        simp [State.goto, State.record, State.setTask]
      cases hb : isThreadBound task with
      | true =>
          have hpc' : s'.pc = .notify task taskList nullContextTasks := by
            subst h
            simp [State.goto, hb]
          simp only [Inv, hpc', hlink]
          exact ⟨hb, s.log, hlog, hs⟩
      | false =>
          have hpc' : s'.pc = .loadContext task taskList nullContextTasks := by
            subst h
            simp [State.goto, hb]
          simp only [Inv, hpc', hlink]
          exact ⟨hb, hnext, s.log, hlog, hs⟩
  | notify task taskList nullContextTasks =>
      simp only [Inv, hpc] at hs
      obtain ⟨hb, log, hlog, visited, delayed, rest, hvisited, hsplit, hrest, hdelayed⟩ := hs
      simp only [Waking.runStep, hpc] at h
      injection h with h
      have hlog' : s'.log = log ++ [.stored task .running, .notified task] := by
        subst h
        simp [State.goto, State.record, hlog]
      refine inv_listLoop taskList nullContextTasks (hlog' ▸ hvisited.bound hb)
        (by simpa using hsplit) ?_ ?_ (h ▸ rfl)
      · exact h ▸ hrest
      · exact h ▸ hdelayed
  | loadContext task taskList nullContextTasks =>
      simp only [Inv, hpc] at hs
      obtain ⟨hb, hnext, log, hlog, hs⟩ := hs
      simp only [Waking.runStep, hpc] at h
      split at h
      next hnull =>
        injection h with h
        subst h
        exact ⟨hb, log, by simp [State.goto, State.record, hlog], hs⟩
      next hnull =>
        injection h with h
        subst h
        exact ⟨hb, hnext, hnull, log, hlog, hs⟩
  | delay task taskList nullContextTasks =>
      simp only [Inv, hpc] at hs
      obtain ⟨hb, log, hlog, hs⟩ := hs
      simp only [Waking.runStep, hpc] at h
      injection h with h
      have hlink : s'.link = Function.update s.link task nullContextTasks := by
        subst h
        exact link_setNext s task nullContextTasks
      have hlog' : s'.log = log ++ [.stored task .running, .delayed task] := by
        subst h
        exact hlog
      -- the two lists are linked as before: `task` is on neither of them
      have hs' : InList isThreadBound l s'.link task taskList nullContextTasks log :=
        hs.congr hl fun x _ hx _ => by simp [hlink, hx]
      obtain ⟨visited, delayed, rest, hvisited, hsplit, hrest, hdelayed⟩ := hs'
      have hvisited' : Visited isThreadBound (visited ++ [task]) (task :: delayed) s'.log :=
        hlog' ▸ hvisited.delayed hb
      refine inv_listLoop taskList (some task) hvisited' (by simpa using hsplit) hrest
        ⟨rfl, ?_⟩ (h ▸ rfl)
      have hnext : s'.link task = nullContextTasks := by rw [hlink, Function.update_self]
      rwa [hnext]
  | enqueue task taskList nullContextTasks =>
      simp only [Inv, hpc] at hs
      obtain ⟨hb, hnext, hcontext, log, hlog, visited, delayed, rest, hvisited, hsplit, hrest,
        hdelayed⟩ := hs
      simp only [Waking.runStep, hpc] at h
      injection h with h
      have hlog' : s'.log = log ++ [.stored task .running,
          .enqueued task none (s.task task).context] := by
        subst h
        simp [State.goto, State.record, hlog, hnext]
      refine inv_listLoop taskList nullContextTasks (hlog' ▸ hvisited.ready hb hcontext)
        (by simpa using hsplit) ?_ ?_ (h ▸ rfl)
      · exact h ▸ hrest
      · exact h ▸ hdelayed
  | delayedReadNext task =>
      simp only [Inv, hpc] at hs
      simp only [Waking.runStep, hpc] at h
      injection h with h
      subst h
      exact hs
  | delayedClearNext task nullContextTasks =>
      simp only [Inv, hpc] at hs
      simp only [Waking.runStep, hpc] at h
      injection h with h
      subst h
      show (s.setNext task none).link task = none ∧ InDelayed isThreadBound l
        (s.setNext task none).link task nullContextTasks s.log
      rw [link_setNext]
      exact ⟨by simp, hs.congr hl fun x _ hx _ => by simp [hx]⟩
  | whileContext task nullContextTasks =>
      simp only [Inv, hpc] at hs
      simp only [Waking.runStep, hpc] at h
      injection h with h
      subst h
      by_cases hnull : (s.task task).context = .null
      · rw [if_pos hnull]
        exact hs
      · rw [if_neg hnull]
        exact ⟨hs.1, hnull, hs.2⟩
  | ifContext task nullContextTasks | sleepContext task nullContextTasks =>
      simp only [Inv, hpc] at hs
      simp only [Waking.runStep, hpc] at h
      injection h with h
      subst h
      split <;> exact hs
  | delayedEnqueue task nullContextTasks =>
      simp only [Inv, hpc] at hs
      obtain ⟨hnext, hcontext, early, late, done, rest, hvisited, hlate, hlog, hrest⟩ := hs
      simp only [Waking.runStep, hpc] at h
      injection h with h
      have hlate' : List.Forall₂ Late (done ++ [task])
          (late ++ [.enqueued task none (s.task task).context]) :=
        List.rel_append hlate (.cons ⟨_, hcontext, rfl⟩ .nil)
      refine inv_delayedLoop (done ++ [task]) nullContextTasks (by simpa using hvisited) hlate'
        ?_ ?_ (h ▸ rfl)
      · subst h
        simp [State.goto, State.record, hlog, hnext]
      · subst h
        exact hrest
  | returned =>
      simp only [Waking.runStep, hpc] at h
      cases h

omit [DecidableEq N] in
/-- **What the rest of the program does keeps the invariant.** -/
theorem Inv.other {task' : N → TaskBase N} (hl : l.Nodup) (hs : Inv isThreadBound l s)
    (hok : LeavesAlone isThreadBound l s (.other task')) :
    Inv isThreadBound l { s with task := task' } := by
  have hlink : ∀ x ∈ l, ¬ Passed isThreadBound s.log x → (task' x).next = s.link x :=
    fun x hx hp => (hok x hx hp).1
  have hcontext : ∀ x ∈ l, ¬ Passed isThreadBound s.log x → isThreadBound x = false →
      (s.task x).context ≠ .null → (task' x).context ≠ .null := fun x hx hp => (hok x hx hp).2
  cases hpc : s.pc with
  | readNext task nullContextTasks =>
      simp only [Inv, hpc] at hs ⊢
      have hnext := hlink task hs.mem (hs.not_passed hl)
      rw [← hnext] at hs
      exact hs.congr hl fun x hx _ => hlink x hx
  | clearNext task taskList nullContextTasks =>
      simp only [Inv, hpc] at hs ⊢
      exact hs.congr hl fun x hx _ => hlink x hx
  | setState task taskList nullContextTasks =>
      simp only [Inv, hpc] at hs ⊢
      obtain ⟨hnext, hs⟩ := hs
      exact ⟨(hlink task hs.mem (hs.not_passed hl)).trans hnext,
        hs.congr hl fun x hx _ => hlink x hx⟩
  -- between the store to `m_state` and the end of the round
  | notify task taskList nullContextTasks =>
      simp only [Inv, hpc] at hs ⊢
      obtain ⟨hb, log, hlog, hs⟩ := hs
      refine ⟨hb, log, hlog, hs.congr hl fun x hx hne hp => hlink x hx ?_⟩
      rwa [hlog, passed_stored (.inl hne)]
  | loadContext task taskList nullContextTasks =>
      simp only [Inv, hpc] at hs ⊢
      obtain ⟨hb, hnext, log, hlog, hs⟩ := hs
      have htask : ¬ Passed isThreadBound s.log task := by
        rw [hlog, passed_stored (.inr hb)]
        exact hs.not_passed hl
      refine ⟨hb, (hlink task hs.mem htask).trans hnext, log, hlog,
        hs.congr hl fun x hx hne hp => hlink x hx ?_⟩
      rwa [hlog, passed_stored (.inl hne)]
  | delay task taskList nullContextTasks =>
      simp only [Inv, hpc] at hs ⊢
      obtain ⟨hb, log, hlog, hs⟩ := hs
      refine ⟨hb, log, hlog, hs.congr hl fun x hx hne hp => hlink x hx ?_⟩
      rwa [hlog, passed_stored_delayed (.inl hne)]
  | enqueue task taskList nullContextTasks =>
      simp only [Inv, hpc] at hs ⊢
      obtain ⟨hb, hnext, hnull, log, hlog, hs⟩ := hs
      have htask : ¬ Passed isThreadBound s.log task := by
        rw [hlog, passed_stored (.inr hb)]
        exact hs.not_passed hl
      refine ⟨hb, (hlink task hs.mem htask).trans hnext, hcontext task hs.mem htask hb hnull, log,
        hlog, hs.congr hl fun x hx hne hp => hlink x hx ?_⟩
      rwa [hlog, passed_stored (.inl hne)]
  | delayedReadNext task =>
      simp only [Inv, hpc] at hs ⊢
      have hnext := hlink task hs.mem.1 (hs.not_passed hl)
      rw [← hnext] at hs
      exact hs.congr hl fun x hx _ => hlink x hx
  | delayedClearNext task nullContextTasks =>
      simp only [Inv, hpc] at hs ⊢
      exact hs.congr hl fun x hx _ => hlink x hx
  | whileContext task nullContextTasks | ifContext task nullContextTasks
  | sleepContext task nullContextTasks =>
      simp only [Inv, hpc] at hs ⊢
      obtain ⟨hnext, hs⟩ := hs
      exact ⟨(hlink task hs.mem.1 (hs.not_passed hl)).trans hnext,
        hs.congr hl fun x hx _ => hlink x hx⟩
  | delayedEnqueue task nullContextTasks =>
      simp only [Inv, hpc] at hs ⊢
      obtain ⟨hnext, hnull, hs⟩ := hs
      have htask := hs.not_passed hl
      exact ⟨(hlink task hs.mem.1 htask).trans hnext,
        hcontext task hs.mem.1 htask hs.mem.2 hnull, hs.congr hl fun x hx _ => hlink x hx⟩
  | returned =>
      simp only [Inv, hpc] at hs ⊢
      exact hs

omit [DecidableEq N] in
theorem inv_start (h : Start l s) : Inv isThreadBound l s := by
  obtain ⟨hnodup, hlog, head, hpc, hlist⟩ := h
  have hvisited : Visited isThreadBound [] [] s.log := hlog ▸ .start
  exact inv_listLoop head none hvisited rfl hlist rfl hpc

theorem inv_reach (h : (machine isThreadBound l).Reach (LeavesAlone isThreadBound l) s) :
    l.Nodup ∧ Inv isThreadBound l s := by
  refine h.invariant (I := fun s => l.Nodup ∧ Inv isThreadBound l s) ?init ?step
  case init => exact fun s hs => ⟨hs.nodup, inv_start hs⟩
  case step =>
    rintro s label s' ⟨hl, hs⟩ hok hstep
    refine ⟨hl, ?_⟩
    cases label with
    | run => exact hs.runStep hl hstep
    | other task' =>
        injection hstep with hstep
        exact hstep ▸ hs.other hl hok

end Steps

/-! ## §5. What has been done when the call returns. -/

/-- **Every task of the list has been passed on, exactly once**: all have been
made Running, in the order of the list, the bound ones were notified and the
unbound ones enqueued, unlinked and with a context; nothing but the enqueueing
of delayed tasks comes after the first delayed task is enqueued. -/
structure PassedOn (isThreadBound : N → Bool) (l : List N) (log : List (Event N)) : Prop where
  visited : stores log = l.map fun x => (x, .running)
  notified : notifications log = l.filter isThreadBound
  enqueued : (enqueues log).Perm (l.filter fun x => !isThreadBound x)
  ready : ∀ task next context, .enqueued task next context ∈ log → next = none ∧ context ≠ .null
  delayedLast : ∃ early late, log = early ++ late ∧ (∀ x ∈ delays log, x ∉ enqueues early) ∧
    ∀ e ∈ late, ∃ task ∈ delays log, ∃ next context, e = .enqueued task next context

theorem late_of_mem {done : List N} (h : List.Forall₂ Late done late) (he : e ∈ late) :
    ∃ x ∈ done, Late x e := by
  induction h with
  | nil => cases he
  | cons hx _ ih =>
      rcases List.mem_cons.mp he with rfl | he
      · exact ⟨_, .head _, hx⟩
      · obtain ⟨x, hmem, hx⟩ := ih he
        exact ⟨x, .tail _ hmem, hx⟩

/-- The second loop only enqueues. -/
theorem projections_late {done : List N} (h : List.Forall₂ Late done late) :
    stores late = [] ∧ notifications late = [] ∧ delays late = [] := by
  induction h with
  | nil => exact ⟨rfl, rfl, rfl⟩
  | cons hx _ ih =>
      obtain ⟨context, -, rfl⟩ := hx
      simpa using ih

theorem Done.passedOn (hl : l.Nodup) (h : Done isThreadBound l log) :
    PassedOn isThreadBound l log := by
  obtain ⟨early, late, delayed, hvisited, hlate, rfl⟩ := h
  obtain ⟨hstores, hnotifications, hdelays⟩ := projections_late hlate
  have hmem : ∀ x, x ∈ delays (early ++ late) ↔ x ∈ delayed := by
    simp [hdelays, hvisited.delays]
  refine ⟨?visited, ?notified, ?enqueued, ?ready, early, late, rfl, ?before, ?after⟩
  case visited => simp [hstores, hvisited.stores]
  case notified => simp [hnotifications, hvisited.notifications]
  case enqueued =>
    rw [enqueues_append, enqueues_late hlate]
    exact hvisited.unbound
  case ready =>
    intro task next context he
    rcases List.mem_append.mp he with he | he
    · exact hvisited.enqueued he
    · obtain ⟨x, -, context', hcontext, he⟩ := late_of_mem hlate he
      cases he
      exact ⟨rfl, hcontext⟩
  case before =>
    intro x hx hmem'
    exact List.disjoint_of_nodup_append (hvisited.not_enqueued hl) hmem' ((hmem x).mp hx)
  case after =>
    intro e he
    obtain ⟨x, hx, context, -, rfl⟩ := late_of_mem hlate he
    exact ⟨x, (hmem x).mpr hx, none, context, rfl⟩

theorem passedOn_of_reach [DecidableEq N] {s : State N}
    (h : (machine isThreadBound l).Reach (LeavesAlone isThreadBound l) s)
    (hpc : s.pc = .returned) : PassedOn isThreadBound l s.log := by
  obtain ⟨hl, hs⟩ := inv_reach h
  simp only [Inv, hpc] at hs
  exact hs.passedOn hl

end Waking

end Alterstack
