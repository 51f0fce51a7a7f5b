/-
  Alterstack.Runtime.Refinement — the running queue is a bag of tasks.

  The queue and the wait lists link tasks through the same field `next`, and in
  clean runs they never link one task both.  So a call of the queue is, at its
  return, one step of `Alterstack.Scheduler.Code`, in which the queue is a bag:
  `put_item` adds its task, `get_item` takes one out or finds none.  Every
  other access inside the queue is no step at all.

  Main results:
    * `sim_go`, `sim_act`, `sim_call`, `sim_queue` — one lemma for each kind of
      step of the runtime;
    * `refines_scheduler` — every clean run of the runtime is matched by a
      clean run of the scheduler over the bag.
-/
import Alterstack.Queue.Emptiness
import Alterstack.Runtime.Code
import Alterstack.Scheduler.Overlay

namespace Alterstack

namespace Runtime

open Lib (Seg Layout Machine)
open Queue Scheduler
open Conservation (OwnsAt trade trade_own trade_cell trade_cell_of_ne trade_own_of_ne trade_mem
  release_mem isPut ret_of_isPut)

variable {Θ T A I : Type*}

/-! ## §1. The queue's lists, and the relation to the bag. -/

/-- A task that the queue or a call of it holds. -/
abbrev Held (L : Layout (Conservation.Place (TaskId Θ T)) (TaskId Θ T)) (z : TaskId Θ T) : Prop :=
  ∃ q, z ∈ L.at_ q

/-- The lists of the queue and of the calls in progress, by the links of the
tasks; `queued` counts the tasks that are in the bag. -/
structure Holds (c : State Θ T A) (queued : T → ℕ)
    (L : Layout (Conservation.Place (TaskId Θ T)) (TaskId Θ T)) : Prop where
  cells : ∀ k, Seg c.sched.link (c.queue.head k) (L.at_ (.cell k)) none
  calls : ∀ y, OwnsAt c.sched.link (L.at_ (.own y)) (c.call y)
  points : ∀ y pc, c.call y = some pc → putting pc = (c.sched.pc y).enqueueing ∧
    (putting pc = none → ∃ ret me, c.sched.pc y = .schedule ret me .queue)
  held : ∀ z, Held L z ↔
    (∃ t, z = .unbound t ∧ 0 < queued t) ∨ ∃ y, (c.call y).bind putting = some z

/-- The scheduler's state `a` is that of the runtime, except for the links of
the tasks that the queue holds and for the counters of the bag. -/
structure Sim (c : State Θ T A) (a : Scheduler.State Θ T A)
    (L : Layout (Conservation.Place (TaskId Θ T)) (TaskId Θ T)) : Prop where
  agrees : a = c.sched.over a.link a.queued
  links : ∀ z, ¬ Held L z → a.link z = c.sched.link z
  holds : Holds c a.queued L

def Refines (c : State Θ T A) (a : Scheduler.State Θ T A) : Prop := ∃ L, Sim c a L

theorem putting_update [DecidableEq Θ] [DecidableEq T]
    (call : TaskId Θ T → Option (LockFreeQueue.Pc (TaskId Θ T))) {x : TaskId Θ T}
    {o : Option (LockFreeQueue.Pc (TaskId Θ T))} (h : o.bind putting = (call x).bind putting)
    (y : TaskId Θ T) : (Function.update call x o y).bind putting = (call y).bind putting := by
  by_cases hy : y = x
  · subst hy
    simpa using h
  · simp [hy]

/-- A call begins on a stack that was not inside `put_item`. -/
theorem exists_putting_update [DecidableEq Θ] [DecidableEq T]
    (call : TaskId Θ T → Option (LockFreeQueue.Pc (TaskId Θ T))) {x : TaskId Θ T}
    {o : Option (LockFreeQueue.Pc (TaskId Θ T))} (hx : (call x).bind putting = none)
    (z : TaskId Θ T) : (∃ y, (Function.update call x o y).bind putting = some z) ↔
      o.bind putting = some z ∨ ∃ y, (call y).bind putting = some z := by
  constructor
  · rintro ⟨y, hy⟩
    by_cases hyx : y = x
    · subst hyx
      exact .inl (by simpa using hy)
    · exact .inr ⟨y, by simpa [hyx] using hy⟩
  · rintro (ho | ⟨y, hy⟩)
    · exact ⟨x, by simpa using ho⟩
    · have hyx : y ≠ x := by
        rintro rfl
        rw [hx] at hy
        cases hy
      exact ⟨y, by simpa [hyx] using hy⟩

theorem held_receive [DecidableEq Θ] [DecidableEq T]
    {L : Layout (Conservation.Place (TaskId Θ T)) (TaskId Θ T)}
    {p : Conservation.Place (TaskId Θ T)} {z : TaskId Θ T} (hfree : ∀ q, z ∉ L.at_ q)
    (y : TaskId Θ T) : Held (L.receive p z hfree) y ↔ y = z ∨ Held L y := by
  simp only [Held, Layout.receive_at]
  constructor
  · rintro ⟨q, hq⟩
    by_cases hqp : q = p
    · subst hqp
      simp only [Function.update_self, List.mem_cons] at hq
      exact hq.imp_right fun hq => ⟨q, hq⟩
    · exact .inr ⟨q, by simpa [hqp] using hq⟩
  · rintro (rfl | ⟨q, hq⟩)
    · exact ⟨p, by simp⟩
    · refine ⟨q, ?_⟩
      by_cases hqp : q = p
      · subst hqp
        simp [hq]
      · simpa [hqp] using hq

variable {c c' : State Θ T A} {a a' : Scheduler.State Θ T A}
  {L : Layout (Conservation.Place (TaskId Θ T)) (TaskId Θ T)} {θ : Θ} {x y z : TaskId Θ T}

theorem Holds.off (h : Holds c a.queued L) {pc : LockFreeQueue.Pc (TaskId Θ T)}
    (hcall : c.call y = some pc) : (c.sched.pc y).off = false := by
  obtain ⟨henq, hget⟩ := h.points y pc hcall
  cases hput : putting pc with
  | none =>
      obtain ⟨ret, me, hpc⟩ := hget hput
      rw [hpc]
      rfl
  | some z =>
      rw [hput] at henq
      cases hpc : c.sched.pc y with
      | postJump => rfl
      | addEnqueue => rfl
      | delayedEnqueue => rfl
      | _ =>
          rw [hpc] at henq
          cases henq

namespace Sim

theorem pc (h : Sim c a L) : a.pc = c.sched.pc := by
  rw [h.agrees]
  rfl

theorem exec (h : Sim c a L) : a.exec = c.sched.exec := by
  rw [h.agrees]
  rfl

theorem state (h : Sim c a L) (z : TaskId Θ T) : (a.task z).state = (c.sched.task z).state := by
  rw [h.agrees]
  rfl

theorem context (h : Sim c a L) (z : TaskId Θ T) :
    (a.task z).context = (c.sched.task z).context := by
  rw [h.agrees]
  rfl

/-- A task in the queue, or about to be enqueued. -/
theorem of_held (h : Sim c a L) (hgood : Good IsUnbound a) (hz : Held L z) :
    ∃ t, z = .unbound t ∧ (0 < a.queued t ∨ ∃ y pc, c.call y = some pc ∧ putting pc = some z ∧
      (a.pc y).enqueueing = some z ∧ (a.pc y).ready = some z) := by
  obtain ⟨tok, L', hinv⟩ := hgood
  rcases (h.holds.held z).mp hz with ⟨t, rfl, hq⟩ | ⟨y, hy⟩
  · exact ⟨t, rfl, .inl hq⟩
  · obtain ⟨pc, hcall, hput⟩ := Option.bind_eq_some_iff.mp hy
    have henq : (a.pc y).enqueueing = some z := by
      rw [h.pc, ← (h.holds.points y pc hcall).1, hput]
    have hloc := hinv.threads.locals y
    cases z with
    | native θ' =>
        have := Pc.unbound_of_enqueueing hloc henq
        cases this
    | unbound t =>
        exact ⟨t, rfl, .inr ⟨y, pc, hcall, hput, henq, Pc.ready_of_enqueueing hloc henq⟩⟩

/-- Such a task is Running, and nobody executes it. -/
theorem running_of_held (h : Sim c a L) (hgood : Good IsUnbound a) (hz : Held L z) :
    (a.task z).state = .running ∧ (∀ θ, a.exec θ ≠ z) ∧ a.pc z ≠ .unborn := by
  obtain ⟨t, rfl, ht⟩ := h.of_held hgood hz
  obtain ⟨tok, L', hinv⟩ := hgood
  rcases ht with hq | ⟨y, -, -, -, -, hready⟩
  · obtain ⟨-, hexec, hborn, hstate⟩ := hinv.tokens.only_of_queued hq
    exact ⟨hstate, hexec, hborn⟩
  · obtain ⟨-, hexec, -, hborn, hstate⟩ := hinv.tokens.only_of_ready hready
    exact ⟨hstate, hexec, hborn⟩

/-- The scheduler's own accesses leave the links of the queue alone. -/
theorem not_held_of_relinking (h : Sim c a L) (hgood : Good IsUnbound a) (hx : a.exec θ = x)
    (hw : (a.pc x).relinking = some z) : ¬ Held L z := by
  intro hz
  obtain ⟨hstate, hexec, -⟩ := h.running_of_held hgood hz
  obtain ⟨t, rfl, ht⟩ := h.of_held hgood hz
  obtain ⟨tok, L', hinv⟩ := hgood
  have hloc := hinv.threads.locals x
  cases hpc : a.pc x with
  | insert aw me pc =>
      -- the current task is executed
      rw [hpc] at hw hloc
      injection hw with hw
      have hme : me = x := hloc
      exact hexec θ (by rw [hx, ← hme, hw])
  | addState rel aw task delayed =>
      -- a listed task is still Waiting
      rw [hpc] at hw
      injection hw with hw
      subst hw
      have hseg := hinv.lists.taken x
      rw [hpc] at hseg
      obtain ⟨rest, hrest, -⟩ := Seg.eq_cons hseg
      have hlisted : TaskId.unbound t ∈ L'.at_ (.taken x) := by
        rw [hrest]
        exact .head _
      have hwaiting := (hinv.lists.listed _ _ hlisted).resolve_right fun he => he.2 rfl
      rw [hstate] at hwaiting
      cases hwaiting
  | addContext rel aw taskList delayed task =>
      -- the stack has the token of the task, and does not enqueue it yet
      rw [hpc] at hw
      injection hw with hw
      subst hw
      have hready : (a.pc x).ready = some (.unbound t) := by rw [hpc]; rfl
      obtain ⟨hothers, -, hq, -⟩ := hinv.tokens.only_of_ready hready
      rcases ht with ht | ⟨y, -, -, -, henq, hready'⟩
      · omega
      · have hyx : y ≠ x := by
          rintro rfl
          rw [hpc] at henq
          cases henq
        exact (hothers y hyx).1 hready'
  | _ =>
      rw [hpc] at hw
      cases hw

end Sim

/-- An unborn task is in no queue. -/
theorem Sim.not_held_of_unborn (h : Sim c a L) (hgood : Good IsUnbound a) {t : T}
    (hlife : a.life (.unbound t) = .unborn) : ¬ Held L (.unbound t) := by
  intro hz
  obtain ⟨-, -, hborn⟩ := h.running_of_held hgood hz
  obtain ⟨tok, L', hinv⟩ := hgood
  exact hborn (hinv.life t hlife)

/-! ## §2. Accesses of the scheduler. -/

section Steps

variable [DecidableEq Θ] [DecidableEq T] [DecidableEq A] {bg : Θ → Bool}
  {s s' : Scheduler.State Θ T A} {q : LockFreeQueue (TaskId Θ T)}
  {call : TaskId Θ T → Option (LockFreeQueue.Pc (TaskId Θ T))} {queued : T → ℕ}
  {w : Option (TaskId Θ T)}

omit [DecidableEq Θ] [DecidableEq T] [DecidableEq A] in
/-- A step of the scheduler, by which the held tasks become those of `L`. -/
theorem sim_of_carries (hc : Carries s s' a' a.link queued w)
    (hlink : ∀ z, ¬ Held L z → w ≠ some z → a.link z = s.link z)
    (hw : ∀ z, w = some z → ¬ Held L z)
    (hcells : ∀ k, Seg s.link (q.head k) (L.at_ (.cell k)) none)
    (hcalls : ∀ y, OwnsAt s.link (L.at_ (.own y)) (call y))
    (hpoints : ∀ y pc, call y = some pc → putting pc = (s'.pc y).enqueueing ∧
      (putting pc = none → ∃ ret me, s'.pc y = .schedule ret me .queue))
    (hheld : ∀ z, Held L z ↔ (∃ t, z = .unbound t ∧ 0 < queued t) ∨
      ∃ y, (call y).bind putting = some z) : Sim ⟨s', q, call⟩ a' L := by
  have hframe : ∀ z, Held L z → s'.link z = s.link z := fun z hz =>
    hc.frame fun hwz => hw z hwz hz
  have hover : a' = s'.over a'.link a'.queued ∧ a'.queued = queued := by
    obtain ⟨link', rfl, -⟩ := hc
    exact ⟨rfl, rfl⟩
  refine ⟨hover.1, fun z hz => hc.agree (hlink z hz), ?_, ?_, hpoints, hover.2 ▸ hheld⟩
  · exact fun k => (hcells k).congr fun z hz => hframe z ⟨_, hz⟩
  · exact fun y => (hcalls y).congr fun z hz => hframe z ⟨_, hz⟩

/-- A step of another stack does not move a stack that is executed. -/
theorem pc_of_other {l : Scheduler.Label Θ T A} (h : Scheduler.step bg s l = some s')
    (hy : y ≠ s.exec l.1) (hoff : (s.pc y).off = false)
    (hlife : ∀ t, y = .unbound t → s.life y = .unborn → s.pc y = .unborn) : s'.pc y = s.pc y := by
  rcases step_cases h with ⟨p', hin⟩ | ⟨ret, new, hpc, hsw⟩ | ⟨action, p', -, hact⟩
  · rw [hin.pc, Function.update_of_ne hy]
  · rcases switchStep_pc hpc hsw y with h | ⟨hyx, -⟩ | ⟨hyoff, -⟩
    · exact h
    · exact absurd hyx hy
    · rw [hoff] at hyoff
      cases hyoff
  · rcases hact.other y hy with h | ⟨t, rfl, ht, -⟩
    · exact h
    · -- a task that is being constructed was not born
      have hborn := hlife t rfl (hact.create t ht).1
      rw [hborn] at hoff
      cases hoff

/-- The calls of the other stacks stay at their points. -/
theorem Sim.points_of_step (h : Sim c a L) (hgood : Good IsUnbound a)
    {l : Scheduler.Label Θ T A} (next : TaskId Θ T → Option (TaskId Θ T))
    (hstep : Scheduler.step bg (c.sched.withLinks next) l = some s')
    (hy : y ≠ c.sched.exec l.1) {pc : LockFreeQueue.Pc (TaskId Θ T)} (hpc : c.call y = some pc) :
    putting pc = (s'.pc y).enqueueing ∧
      (putting pc = none → ∃ ret me, s'.pc y = .schedule ret me .queue) := by
  have hsame : s'.pc y = c.sched.pc y := by
    refine pc_of_other (s := c.sched.withLinks next) hstep hy (h.holds.off hpc) ?_
    rintro t rfl hlife
    obtain ⟨tok, L', hinv⟩ := hgood
    have hborn := hinv.life t (by rw [h.agrees]; exact hlife)
    rwa [h.pc] at hborn
  rw [hsame]
  exact h.holds.points y pc hpc

/-- What a step of the scheduler without a call of the queue needs. -/
theorem Sim.scheduler (h : Sim c a L) (hgood : Good IsUnbound a) {l : Scheduler.Label Θ T A}
    (hcall : c.call (c.sched.exec l.1) = none) (hstep : Scheduler.step bg c.sched l = some s')
    (hc : Carries c.sched s' a' a.link a.queued w) (hw : ∀ z, w = some z → ¬ Held L z) :
    Sim { c with sched := s' } a' L := by
  refine sim_of_carries hc (fun z hz _ => h.links z hz) hw h.holds.cells h.holds.calls ?_
    h.holds.held
  intro y pc hpc
  refine h.points_of_step hgood c.sched.link hstep ?_ hpc
  rintro rfl
  rw [hcall] at hpc
  cases hpc

omit [DecidableEq Θ] [DecidableEq T] [DecidableEq A] in
/-- The condition on a clean step looks at no link and at no counter. -/
theorem Sim.clean (h : Sim c a L) {choice : Scheduler.Choice T A}
    (hok : Scheduler.Clean c.sched (θ, .go false)) : Scheduler.Clean a (θ, choice) := by
  rw [h.agrees]
  exact ⟨hok.wakes, hok.pauses⟩

/-- **An access of the scheduler** is that access over the bag. -/
theorem sim_go (h : Sim c a L) (hgood : Good IsUnbound a) {spurious : Bool}
    (hstep : step bg c (θ, .go spurious) = some c') :
    ∃ a', Scheduler.step bg a (θ, .go spurious) = some a' ∧ Sim c' a' L := by
  obtain ⟨s', hcall, henq, hgo, rfl⟩ := step_go hstep
  have hloc : (c.sched.pc (c.sched.exec θ)).Local (c.sched.exec θ) := by
    obtain ⟨tok, L', hinv⟩ := hgood
    rw [← h.pc]
    exact hinv.threads.locals _
  have hw : ∀ z, (c.sched.pc (c.sched.exec θ)).relinking = some z → ¬ Held L z := by
    intro z hz
    rw [← h.pc] at hz
    exact h.not_held_of_relinking hgood (congrFun h.exec θ) hz
  obtain ⟨a', ha, hc⟩ := goStep_over a.link a.queued hloc
    (fun z hz => h.links z (hw z hz)) hgo
  rw [henq] at hc
  refine ⟨a', ?_, h.scheduler (l := (θ, .go spurious)) hgood hcall hgo hc hw⟩
  rw [h.agrees]
  exact ha

/-- **An action of the program** is that action over the bag. -/
theorem sim_act (h : Sim c a L) (hgood : Good IsUnbound a) {action : Action T A}
    (hstep : step bg c (θ, .act action) = some c') :
    ∃ a', Scheduler.step bg a (θ, .act action) = some a' ∧ Sim c' a' L := by
  obtain ⟨s', hcall, hact, rfl⟩ := step_act hstep
  have huser : c.sched.pc (c.sched.exec θ) = .user ∧
      actionStep bg c.sched θ (c.sched.exec θ) action = some s' := by
    cases hpc : c.sched.pc (c.sched.exec θ) with
    | user =>
        simp only [Scheduler.step, hpc] at hact
        exact ⟨rfl, hact⟩
    | _ =>
        simp only [Scheduler.step, hpc] at hact
        cases hact
  obtain ⟨hpc, hact'⟩ := huser
  obtain ⟨a', ha, hc⟩ := actionStep_over a.link a.queued hact'
  refine ⟨a', ?_, h.scheduler (l := (θ, .act action)) hgood hcall hact hc ?_⟩
  · have hpca : a.pc (a.exec θ) = .user := by rw [h.pc, h.exec, hpc]
    simp only [Scheduler.step, hpca]
    rw [h.agrees]
    exact ha
  · -- a task under construction was not born
    intro z hz
    cases action with
    | create t =>
        cases hz
        refine h.not_held_of_unborn hgood ?_
        rw [h.agrees]
        obtain ⟨p', hacts⟩ := acts_of_actionStep hpc hact'
        exact (hacts.create t rfl).1
    | _ => cases hz

/-! ## §3. Calls of the queue. -/

/-- **A call begins**: the queue holds what is enqueued. -/
theorem sim_call (h : Sim c a L) (hgood : Good IsUnbound a) {prio : UInt32}
    (hstep : step bg c (θ, .call prio) = some c') : Refines c' a := by
  obtain ⟨pc, hcall, hat, rfl⟩ := step_call hstep
  set x := c.sched.exec θ with hx
  have hown : L.at_ (.own x) = [] := by
    have := h.holds.calls x
    rwa [hcall] at this
  rcases callAt_cases hat with ⟨rfl, ret, me, hpc⟩ | ⟨z, rfl, henq⟩
  · refine ⟨L, h.agrees, h.links, h.holds.cells, fun y => ?_, fun y pc hy => ?_, fun z => ?_⟩
    · by_cases hyx : y = x
      · subst hyx
        simpa [OwnsAt, LockFreeQueue.getItem, LockFreeQueue.Pc.Owns,
          BoundBuffer.Pc.Owns] using hown
      · simpa [hyx] using h.holds.calls y
    · by_cases hyx : y = x
      · subst hyx
        simp only [Function.update_self, Option.some.injEq] at hy
        subst hy
        rw [hpc]
        exact ⟨rfl, fun _ => ⟨ret, me, rfl⟩⟩
      · exact h.holds.points y pc (by simpa [hyx] using hy)
    · simp only [h.holds.held z, putting_update c.call (x := x)
        (o := some LockFreeQueue.getItem) (by rw [hcall]; rfl)]
  · -- nobody else is about to enqueue the task, and it is not in the queue
    have hfree : ∀ p, z ∉ L.at_ p := by
      intro p hp
      obtain ⟨t, rfl, ht⟩ := h.of_held hgood ⟨p, hp⟩
      have henqa : (a.pc x).enqueueing = some (.unbound t) := by rw [h.pc, henq]
      obtain ⟨hq, -, honly⟩ := hgood.exclusive.enqueued x t henqa
      rcases ht with ht | ⟨y, pc, hy, -, hyenq, -⟩
      · omega
      · rw [honly y hyenq, hcall] at hy
        cases hy
    refine ⟨L.receive (.own x) z hfree, h.agrees, fun y hy => h.links y fun hy' => hy ?_,
      fun k => ?_, fun y => ?_, fun y pc hy => ?_, fun y => ?_⟩
    · exact (held_receive hfree y).mpr (.inr hy')
    · rw [Layout.receive_at, Function.update_of_ne (by simp)]
      exact h.holds.cells k
    · by_cases hyx : y = x
      · subst hyx
        simpa [hown, OwnsAt] using LockFreeQueue.putItem_owns z prio
      · simpa [hyx] using h.holds.calls y
    · by_cases hyx : y = x
      · subst hyx
        simp only [Function.update_self, Option.some.injEq] at hy
        subst hy
        rw [henq, putting_putItem]
        exact ⟨rfl, fun hnone => by cases hnone⟩
      · exact h.holds.points y pc (by simpa [hyx] using hy)
    · rw [held_receive, h.holds.held y,
        exists_putting_update c.call (x := x) (by rw [hcall]; rfl)]
      simp only [Option.bind_some, putting_putItem, Option.some.injEq, eq_comm (a := y)]
      exact or_left_comm

omit [DecidableEq A] in
/-- **An access inside a call**: the queue's lists trade with the stack. -/
theorem Holds.access (h : Holds c queued L) {pc : LockFreeQueue.Pc (TaskId Θ T)}
    (hcall : c.call x = some pc) (spurious : Bool) {q : LockFreeQueue (TaskId Θ T)}
    {next : TaskId Θ T → Option (TaskId Θ T)} {nx : LockFreeQueue.Next (TaskId Θ T)}
    (hr : c.queue.step spurious c.sched.link pc = (q, next, nx)) :
    ∃ L' : Layout (Conservation.Place (TaskId Θ T)) (TaskId Θ T),
      (∀ k, Seg next (q.head k) (L'.at_ (.cell k)) none) ∧
      (∀ y, y ≠ x → OwnsAt next (L'.at_ (.own y)) (c.call y)) ∧
      nx.Owns next (L'.at_ (.own x)) ∧ (∀ z, Held L' z ↔ Held L z) ∧
      ∀ z, ¬ Held L z → next z = c.sched.link z := by
  have howns : pc.Owns c.sched.link (L.at_ (.own x)) := by
    have := h.calls x
    rwa [hcall] at this
  have hlocal : Local c.queue.head c.sched.link (fun k => L.at_ (.cell k)) (L.at_ (.own x)) :=
    ⟨h.cells, fun k => List.nodup_append.mpr ⟨L.nodup _, L.nodup _, fun z hz y hy hzy => by
      have := L.excl hz (hzy ▸ hy)
      cases this⟩⟩
  obtain ⟨j, m, l, hk, hs, hp, hw, ho⟩ := LockFreeQueue.step_trade spurious hlocal howns
  rw [hr] at hk hs hw ho
  dsimp only at hk hs hw ho
  -- the lists and stacks that the access leaves alone
  have hframe : ∀ p, p ≠ .own x → ∀ z ∈ (trade L x j m l hp).at_ p, next z = c.sched.link z := by
    intro p hpx z hz
    refine hw z fun hl => ?_
    have hown : z ∈ (trade L x j m l hp).at_ (.own x) := by rwa [trade_own]
    exact hpx ((trade L x j m l hp).excl hz hown)
  have hmem : ∀ z, Held (trade L x j m l hp) z ↔ Held L z := fun z => trade_mem z
  refine ⟨trade L x j m l hp, fun k => ?_, fun y hy => ?_, ?_, hmem, fun z hz => ?_⟩
  · by_cases hkj : k = j
    · subst hkj
      rwa [trade_cell]
    · have hx := hframe (.cell k) (by simp)
      rw [trade_cell_of_ne hkj] at hx ⊢
      rw [hk k hkj]
      exact (h.cells k).congr hx
  · have hx := hframe (.own y) (by simp [hy])
    rw [trade_own_of_ne hy] at hx ⊢
    exact (h.calls y).congr hx
  · rwa [trade_own]
  · refine hw z fun hl => hz ((hmem z).mp ⟨.own x, ?_⟩)
    rwa [trade_own]

theorem queueReturn_of_enqueueing {p : Scheduler.Pc Θ T A} {item : Option (TaskId Θ T)}
    (h : p.enqueueing = some z) : queueReturn bg s θ x item p = goStep bg s θ x false p := by
  cases p with
  | schedule => cases h
  | _ => rfl

omit [DecidableEq Θ] [DecidableEq A] in
theorem exists_countPut {t : T} (y : TaskId Θ T) :
    (∃ u, y = .unbound u ∧ 0 < countPut queued (some (.unbound t : TaskId Θ T)) u) ↔
      y = .unbound t ∨ ∃ u, y = .unbound u ∧ 0 < queued u := by
  constructor
  · rintro ⟨u, rfl, hu⟩
    by_cases hut : u = t
    · exact .inl (hut ▸ rfl)
    · exact .inr ⟨u, rfl, by simpa [countPut, hut] using hu⟩
  · rintro (rfl | ⟨u, rfl, hu⟩)
    · exact ⟨t, rfl, by simp [countPut]⟩
    · refine ⟨u, rfl, ?_⟩
      by_cases hut : u = t
      · subst hut
        simp [countPut]
      · simpa [countPut, hut] using hu

omit [DecidableEq Θ] [DecidableEq T] [DecidableEq A] in
theorem relinking_of_enqueueing {p : Scheduler.Pc Θ T A} (h : p.enqueueing = some z) :
    p.relinking = none := by
  cases p with
  | insert => cases h
  | addState => cases h
  | addContext => cases h
  | _ => rfl

/-- **`put_item` returns**: the task is in the bag. -/
theorem sim_putReturn (h : Sim c a L) (hgood : Good IsUnbound a)
    {pc : LockFreeQueue.Pc (TaskId Θ T)} (hcall : c.call (c.sched.exec θ) = some pc)
    {q : LockFreeQueue (TaskId Θ T)} {next : TaskId Θ T → Option (TaskId Θ T)}
    {item : Option (TaskId Θ T)} {more spurious : Bool}
    (hr : c.queue.step spurious c.sched.link pc = (q, next, .ret item more))
    (hput : putting pc = some z)
    (hret : queueReturn bg (c.sched.withLinks next) θ (c.sched.exec θ) item
      (c.sched.pc (c.sched.exec θ)) = some s') :
    ∃ a', Scheduler.step bg a (θ, .go false) = some a' ∧
      Refines ⟨s', q, Function.update c.call (c.sched.exec θ) none⟩ a' := by
  set x := c.sched.exec θ with hx
  obtain ⟨L', hcells, hothers, hown, hheld, hlinks⟩ := h.holds.access hcall spurious hr
  have henq : (c.sched.pc x).enqueueing = some z := by rw [← (h.holds.points x pc hcall).1, hput]
  have hloc : (c.sched.pc x).Local x := by
    obtain ⟨tok, L₀, hinv⟩ := hgood
    rw [← h.pc]
    exact hinv.threads.locals _
  rw [queueReturn_of_enqueueing henq] at hret
  have hnone : ((c.sched.withLinks next).pc x).relinking = none := relinking_of_enqueueing henq
  obtain ⟨a', ha, hc⟩ := goStep_over (s := c.sched.withLinks next) a.link
    a.queued hloc (fun y hy => by rw [hnone] at hy; cases hy) hret
  have henq' : ((c.sched.withLinks next).pc x).enqueueing = some z := henq
  rw [hnone, henq'] at hc
  have hstep : Scheduler.step bg (c.sched.withLinks next) (θ, .go false) = some s' := hret
  refine ⟨a', ?_, L', sim_of_carries hc (fun y hy _ => ?_) (fun _ hw => by cases hw) hcells
    (fun y => ?_)
    (fun y pc' hy => ?_) fun y => ?_⟩
  · rw [h.agrees]
    exact ha
  · rw [h.links y fun hy' => hy ((hheld y).mpr hy')]
    exact (hlinks y fun hy' => hy ((hheld y).mpr hy')).symm
  · by_cases hyx : y = x
    · subst hyx
      obtain rfl := ret_of_isPut (isPut_of_putting hput) (congrArg (·.2.2) hr)
      simpa [OwnsAt] using hown.1
    · simpa [hyx] using hothers y hyx
  · have hyx : y ≠ x := by
      rintro rfl
      simp at hy
    exact h.points_of_step hgood next hstep hyx (by simpa [hyx] using hy)
  · -- the task moves from the call to the bag
    have hz : Held L z := (h.holds.held z).mpr (.inr ⟨x, by rw [hcall]; exact hput⟩)
    obtain ⟨t, rfl, -⟩ := h.of_held hgood hz
    have hcalls := exists_putting_update (Function.update c.call x none) (x := x)
      (o := c.call x) (by simp) y
    rw [Function.update_idem, Function.update_eq_self, hcall, Option.bind_some, hput] at hcalls
    rw [hheld, h.holds.held, hcalls, exists_countPut, Option.some.injEq, eq_comm (a := y)]
    exact or_left_comm.trans or_assoc.symm

omit [DecidableEq A] in
/-- What the queue returns is unlinked already. -/
theorem pickStep_over (ret : SchedRet Θ T A) (me : TaskId Θ T) {t : T}
    (link : TaskId Θ T → Option (TaskId Θ T)) (hq : 0 < queued t)
    (hnext : s.link (.unbound t) = none) :
    ∃ a', pickStep (s.over link queued) x ret me (some t) = some a' ∧
      Carries s (s.setPc x (gotPc ret me (some (.unbound t)))) a' link
        (Function.update queued t (queued t - 1)) (some (.unbound t)) := by
  have hq' : 0 < (s.over link queued).queued t := hq
  simp only [pickStep, if_pos hq', over_dequeue]
  refine ⟨_, rfl, _, rfl, ?_, fun z hz => ?_⟩
  · rintro z ⟨⟩
    simpa [State.setPc, State.link] using hnext.symm
  · have hzt : z ≠ .unbound t := fun hzt => hz (hzt ▸ rfl)
    exact ⟨by simp [hzt], rfl⟩

/-- **`get_item` returns**: one step takes the task out of the bag. -/
theorem sim_getReturn (bg : Θ → Bool) (h : Sim c a L) (hgood : Good IsUnbound a)
    {pc : LockFreeQueue.Pc (TaskId Θ T)} (hcall : c.call (c.sched.exec θ) = some pc)
    {q : LockFreeQueue (TaskId Θ T)} {next : TaskId Θ T → Option (TaskId Θ T)}
    {item : Option (TaskId Θ T)} {more spurious : Bool}
    (hr : c.queue.step spurious c.sched.link pc = (q, next, .ret item more))
    {ret : SchedRet Θ T A} {me : TaskId Θ T}
    (hpc : c.sched.pc (c.sched.exec θ) = .schedule ret me .queue) :
    ∃ t a', Scheduler.step bg a (θ, .pick t) = some a' ∧
      Refines ⟨(c.sched.withLinks next).setPc (c.sched.exec θ) (gotPc ret me item), q,
        Function.update c.call (c.sched.exec θ) none⟩ a' := by
  set x := c.sched.exec θ with hx
  obtain ⟨L', hcells, hothers, hown, hheld, hlinks⟩ := h.holds.access hcall spurious hr
  have hput : putting pc = none := by
    rw [(h.holds.points x pc hcall).1, hpc]
    rfl
  have hpca : a.pc (a.exec θ) = .schedule ret me .queue := by rw [h.pc, h.exec, ← hx, hpc]
  have hpick : ∀ t, Scheduler.step bg a (θ, .pick t) = pickStep a x ret me t := by
    intro t
    simp only [Scheduler.step, hpca]
    rw [h.exec]
  -- the calls and points that are left
  have hcalls : ∀ y, (Function.update c.call x none y).bind putting = (c.call y).bind putting :=
    putting_update _ (by rw [hcall, Option.bind_some, hput]; rfl)
  have hpoints : ∀ y pc', Function.update c.call x none y = some pc' →
      putting pc' = (((c.sched.withLinks next).setPc x (gotPc ret me item)).pc y).enqueueing ∧
      (putting pc' = none → ∃ ret' me', ((c.sched.withLinks next).setPc x
        (gotPc ret me item)).pc y = .schedule ret' me' .queue) := by
    intro y pc' hy
    have hyx : y ≠ x := by
      rintro rfl
      simp at hy
    have hsame : ((c.sched.withLinks next).setPc x (gotPc ret me item)).pc y = c.sched.pc y := by
      simp [State.setPc, State.withLinks, hyx]
    rw [hsame]
    exact h.holds.points y pc' (by simpa [hyx] using hy)
  have hlink : ∀ y, ¬ Held L' y → a.link y = (c.sched.withLinks next).link y := by
    intro y hy
    rw [h.links y fun hy' => hy ((hheld y).mpr hy')]
    exact (hlinks y fun hy' => hy ((hheld y).mpr hy')).symm
  cases item with
  | none =>
      have hc : Carries (c.sched.withLinks next)
          ((c.sched.withLinks next).setPc x (gotPc ret me none)) (a.setPc x (gotPc ret me none))
          a.link a.queued none := by
        refine .quiet ?_ rfl
        rw [h.agrees]
        rfl
      refine ⟨none, _, hpick none, L', sim_of_carries hc (fun y hy _ => hlink y hy)
        (fun _ hw => by cases hw) hcells (fun y => ?_) hpoints fun y => ?_⟩
      · by_cases hyx : y = x
        · subst hyx
          simpa [OwnsAt] using hown.1
        · simpa [hyx] using hothers y hyx
      · simp only [hheld, h.holds.held, hcalls]
  | some z =>
      obtain ⟨hl, hnext⟩ := hown
      have hz : z ∈ L'.at_ (.own x) := by simp [hl]
      -- nobody is inside `put_item` with the task, so it is in the bag
      have hnot : ∀ y, (c.call y).bind putting ≠ some z := by
        intro y hy
        obtain ⟨pc', hpc', hput'⟩ := Option.bind_eq_some_iff.mp hy
        have hyx : y ≠ x := by
          rintro rfl
          rw [hcall, Option.bind_some, hput] at hy
          cases hy
        have howns := hothers y hyx
        rw [hpc'] at howns
        have hmem : z ∈ L'.at_ (.own y) := by simp [owns_of_putting howns hput']
        injection L'.excl hmem hz with hyx'
        exact hyx hyx'
      obtain ⟨t, rfl, ht⟩ := h.of_held hgood ((hheld z).mp ⟨_, hz⟩)
      have hq : 0 < a.queued t := by
        rcases ht with ht | ⟨y, pc', hpc', hput', -⟩
        · exact ht
        · exact absurd (by rw [hpc']; exact hput') (hnot y)
      have hle := hgood.exclusive.stored t
      obtain ⟨a', ha, hc⟩ := pickStep_over (s := c.sched.withLinks next) (x := x) ret me
        a.link hq (hnext _ rfl)
      have hmem : ∀ y, Held (L'.release (.own x) [] (List.nil_sublist _)) y ↔
          Held L' y ∧ y ≠ .unbound t := by
        intro y
        have hy : y ∉ L'.at_ (.own x) ↔ y ≠ .unbound t := by simp [hl]
        exact (release_mem L' x y).trans (and_congr_right fun _ => hy)
      refine ⟨some t, a', ?_, L'.release (.own x) [] (List.nil_sublist _),
        sim_of_carries hc (fun y hy hyt => hlink y fun hy' => hy ?_) (fun y hy => ?_)
          (fun k => ?_) (fun y => ?_) hpoints fun y => ?_⟩
      · rw [hpick, h.agrees]
        exact ha
      · exact (hmem y).mpr ⟨hy', fun hyz => hyt (hyz ▸ rfl)⟩
      · cases hy
        exact fun hy => ((hmem _).mp hy).2 rfl
      · rw [Layout.release_at, Function.update_of_ne (by simp)]
        exact hcells k
      · by_cases hyx : y = x
        · subst hyx
          simp [OwnsAt]
        · rw [Layout.release_at, Function.update_of_ne (by simp [hyx])]
          simpa [hyx] using hothers y hyx
      · simp only [hmem, hheld, h.holds.held, hcalls]
        constructor
        · rintro ⟨⟨u, rfl, hu⟩ | hy, hyt⟩
          · have hut : u ≠ t := fun hut => hyt (hut ▸ rfl)
            exact .inl ⟨u, rfl, by simpa [hut] using hu⟩
          · exact .inr hy
        · rintro (⟨u, rfl, hu⟩ | ⟨w, hw⟩)
          · have hut : u ≠ t := by
              rintro rfl
              simp only [Function.update_self] at hu
              omega
            refine ⟨.inl ⟨u, rfl, by simpa [hut] using hu⟩, fun hyt => ?_⟩
            injection hyt with hyt
            exact hut hyt
          · exact ⟨.inr ⟨w, hw⟩, fun hyt => hnot w (hyt ▸ hw)⟩

/-- **A step inside the queue** is at most one step over the bag. -/
theorem sim_queue (h : Sim c a L) (hgood : Good IsUnbound a) {spurious : Bool}
    (hstep : step bg c (θ, .queue spurious) = some c') :
    Refines c' a ∨ ∃ choice a', Scheduler.step bg a (θ, choice) = some a' ∧ Refines c' a' := by
  obtain ⟨pc, hcall, hafter⟩ := step_queue hstep
  rcases hr : c.queue.step spurious c.sched.link pc with ⟨q, next, nx⟩
  rw [hr] at hafter
  cases nx with
  | goto pc' =>
      injection hafter with hafter
      subst hafter
      obtain ⟨L', hcells, hothers, hown, hheld, hlinks⟩ := h.holds.access hcall spurious hr
      have hput : putting pc' = putting pc := putting_step (congrArg (·.2.2) hr)
      refine .inl ⟨L', h.agrees, fun y hy => ?_, hcells, fun y => ?_, fun y pc'' hy => ?_,
        fun y => ?_⟩
      · rw [h.links y fun hy' => hy ((hheld y).mpr hy')]
        exact (hlinks y fun hy' => hy ((hheld y).mpr hy')).symm
      · by_cases hyx : y = c.sched.exec θ
        · subst hyx
          have hown' : pc'.Owns next (L'.at_ (.own (c.sched.exec θ))) := hown
          simpa [OwnsAt] using hown'
        · simpa [hyx] using hothers y hyx
      · by_cases hyx : y = c.sched.exec θ
        · subst hyx
          simp only [Function.update_self, Option.some.injEq] at hy
          subst hy
          rw [hput]
          exact h.holds.points _ pc hcall
        · exact h.holds.points y pc'' (by simpa [hyx] using hy)
      · simp only [hheld, h.holds.held, putting_update c.call
          (x := c.sched.exec θ) (o := some pc') (by rw [hcall, Option.bind_some, Option.bind_some,
            hput])]
  | ret item more =>
      obtain ⟨s', hret, rfl⟩ := Option.map_eq_some_iff.mp hafter
      obtain ⟨hpoint, hget⟩ := h.holds.points _ pc hcall
      right
      cases hput : putting pc with
      | some z =>
          obtain ⟨a', ha, hsim⟩ := sim_putReturn h hgood hcall hr hput hret
          exact ⟨_, a', ha, hsim⟩
      | none =>
          obtain ⟨ret, me, hpc⟩ := hget hput
          obtain ⟨t, a', ha, hsim⟩ := sim_getReturn bg h hgood hcall hr hpc
          have hpc' : (c.sched.withLinks next).pc (c.sched.exec θ) = .schedule ret me .queue := hpc
          rw [hpc'] at hret
          injection hret with hret
          exact ⟨_, a', ha, hret ▸ hsim⟩

/-! ## §4. Clean runs. -/

/-- A step of a thread that is clean for the scheduler, whatever the queue does. -/
def Clean (c : State Θ T A) (l : Label Θ T A) : Prop := Scheduler.Clean c.sched (l.1, .go false)

instance [Fintype Θ] [Fintype T] (c : State Θ T A) (l : Label Θ T A) : Decidable (Clean c l) :=
  inferInstanceAs (Decidable (Scheduler.Clean c.sched (l.1, .go false)))

omit [DecidableEq Θ] [DecidableEq T] [DecidableEq A] in
theorem sim_initial :
    Refines (initial : State Θ T A) (Scheduler.initial : Scheduler.State Θ T A) := by
  refine ⟨.empty, rfl, fun _ _ => rfl, ?_, fun _ => rfl, fun _ _ hy => (by cases hy),
    fun z => ?_⟩
  · rintro (k | k) <;> rfl
  · simp [Held, initial, Scheduler.initial]

/-- **One step of the runtime** is at most one step over the bag. -/
theorem sim_step (h : Refines c a) (hgood : Good IsUnbound a) {l : Label Θ T A}
    (hstep : step bg c l = some c') :
    Refines c' a ∨ ∃ choice a', Scheduler.step bg a (l.1, choice) = some a' ∧ Refines c' a' := by
  obtain ⟨L, h⟩ := h
  obtain ⟨θ, choice⟩ := l
  cases choice with
  | go spurious =>
      obtain ⟨a', ha, hsim⟩ := sim_go h hgood hstep
      exact .inr ⟨_, a', ha, L, hsim⟩
  | act action =>
      obtain ⟨a', ha, hsim⟩ := sim_act h hgood hstep
      exact .inr ⟨_, a', ha, L, hsim⟩
  | call prio => exact .inl (sim_call h hgood hstep)
  | queue spurious => exact sim_queue h hgood hstep

/-- Every clean run of the runtime is matched by a clean run over the bag. -/
theorem exists_bagRun (h : (machine T A bg).Reach Clean c) :
    ∃ a, (Scheduler.machine T A bg).Reach Scheduler.Clean a ∧ Good IsUnbound a ∧ Refines c a := by
  refine h.simulates (R := fun c a => Good IsUnbound a ∧ Refines c a) ?_ ?_
  · rintro c rfl
    exact ⟨_, rfl, inv_init, sim_initial⟩
  · rintro c l c' a ⟨hgood, hsim⟩ hok hstep
    rcases sim_step hsim hgood hstep with hsim' | ⟨choice, a', ha, hsim'⟩
    · exact ⟨a, .refl a, hgood, hsim'⟩
    · obtain ⟨L, hL⟩ := hsim
      have hclean : Scheduler.Clean a (l.1, choice) := hL.clean hok
      exact ⟨a', .single hclean ha, inv_step (fun _ => rfl) hgood hclean.orderly ha, hsim'⟩

/-- **The runtime refines the scheduler over the bag.** -/
theorem refines_scheduler (h : (machine T A bg).Reach Clean c) :
    ∃ a, (Scheduler.machine T A bg).Reach Scheduler.Clean a ∧ Refines c a := by
  obtain ⟨a, ha, -, hR⟩ := exists_bagRun h
  exact ⟨a, ha, hR⟩

end Steps

/-! ## §5. A run. -/

open OsThread

/-- The main thread constructs a task, which waits; another thread releases it
and pushes it into the stack of its priority; the main thread looks for it in
the four slots. -/
def releasedIntoQueue : List (Label OsThread Unit Unit) :=
  (main, .act (.create ())) :: List.replicate 4 (main, .go false) ++
    (main, .act (.wait ())) :: List.replicate 10 (main, .go false) ++
    (second, .act (.release ())) :: List.replicate 4 (second, .go false) ++
    (second, .call 1) :: List.replicate 2 (second, .queue false) ++
    (main, .act .yield) :: (main, .call 0) :: List.replicate 9 (main, .queue false)

theorem exists_releasedIntoQueue :
    ∃ c : State OsThread Unit Unit, (machine Unit Unit fun _ => false).Reach Clean c ∧
      c.queue.prioQueue 0 = some (.unbound ()) := by
  obtain ⟨c, hc, hp⟩ := Machine.exists_reach_of_replayOk
    (machine Unit Unit fun _ : OsThread => false) Clean releasedIntoQueue
    (fun c => c.queue.prioQueue 0 == some (.unbound ())) rfl (by decide +kernel)
  exact ⟨c, hc, by simpa using hp⟩

theorem refines_scheduler_releasedIntoQueue :
    ∃ (c : State OsThread Unit Unit) (a : Scheduler.State OsThread Unit Unit),
      c.queue.prioQueue 0 = some (.unbound ()) ∧
      (Scheduler.machine Unit Unit fun _ => false).Reach Scheduler.Clean a ∧ Refines c a := by
  obtain ⟨c, hc, hq⟩ := exists_releasedIntoQueue
  obtain ⟨a, ha, hR⟩ := refines_scheduler hc
  exact ⟨c, a, hq, ha, hR⟩

end Runtime

end Alterstack
