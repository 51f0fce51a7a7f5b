/-
  Alterstack.Background.Stopping — BgThreads and how `~BgRunner` stops them.

  A BgThread runs the whole of `thread_function`: `schedule()`, the look at
  `m_stop_requested`, `wait()` with its counter `m_sleep_count`, the look
  again, and on the way out the guard that sets `m_thread_stopped`.  One thread
  runs `~BgRunner`: it requests the stop of every BgThread and then destroys
  them front to back, `~BgThread` being `stop_thread()` (request, `wake_up()`,
  and `wake_up()` again until `m_thread_stopped`) and the join of the OS
  thread.  Any other threads may call `wake_up()` on any BgThread meanwhile, as
  `BgRunner::notify` does.  How long `schedule()` runs tasks is left open.

  Main results:
    * `Stopping.stops_exactly` — a thread function returns only on request, the
      flag `m_thread_stopped` says so exactly, a destroyed BgThread has no OS
      thread left, and `m_sleep_count` counts the sleepers, none at the end;
    * `Stopping.not_blocked_of_woken` — after the one `wake_up()` that follows
      the request the thread never blocks again, so that the polling loop of
      `ensure_thread_stopped` need not wake it;
    * `Stopping.simulates_pool` — until a stop is requested the machine does
      whatever `Alterstack.Background.Pool` does.
-/
import Alterstack.Lib.Counter
import Alterstack.Background.Pool

namespace Alterstack

namespace Stopping

open Lib Futex

/-! ## §1. `BgThread`. -/

/-- Control points of `thread_function`: `schedule()`, the two calls of
`is_stop_requested()`, `wait()`, the destructor of the guard, and then the OS
thread on its way out. -/
inductive ThreadPc where
  | schedule
  | stopAfterSchedule
  | addSleep
  | wait (pc : WaitPc)
  | subSleep
  | stopAfterWait
  | guard
  | returned
  | ended
  deriving DecidableEq

/-- A `BgThread` and where its OS thread stands. -/
structure BgThread where
  threadStopped : Bool := false
  stopRequested : Bool := false
  taskAvalableFutex : Futex := {}
  pc : ThreadPc := .schedule
  deriving DecidableEq

/-- One step of `thread_function`, with the counter `m_sleep_count`; `more` says
that `schedule()` has not seen the queue empty yet. -/
def threadStep (more : Bool) (sleepCount : UInt32) (b : BgThread) : Option (UInt32 × BgThread) :=
  match b.pc with
  | .schedule => some (sleepCount, { b with pc := if more then .schedule else .stopAfterSchedule })
  | .stopAfterSchedule =>
      some (sleepCount, { b with pc := if b.stopRequested then .guard else .addSleep })
  | .addSleep => some (sleepCount + 1, { b with pc := .wait .load })
  | .wait pc =>
      (b.taskAvalableFutex.waitStep pc).map (fun next =>
        (sleepCount, { b with
          taskAvalableFutex := next.1
          pc := match next.2 with
            | some pc' => .wait pc'
            | none => .subSleep }))
  | .subSleep => some (sleepCount - 1, { b with pc := .stopAfterWait })
  | .stopAfterWait =>
      some (sleepCount, { b with pc := if b.stopRequested then .guard else .schedule })
  | .guard => some (sleepCount, { b with threadStopped := true, pc := .returned })
  | .returned => some (sleepCount, { b with pc := .ended })
  | .ended => none

/-- The thread that a `FUTEX_WAKE` finds blocked leaves it. -/
def ThreadPc.woken : ThreadPc → ThreadPc
  | .wait .blocked => .wait .subCounter
  | pc => pc

/-- One access of `wake_up()`, which is `notify_all()`: the BgThread and where
the call goes on, `none` when it has returned. -/
def wakeUp (b : BgThread) (pc : NotifyPc) : BgThread × Option NotifyPc :=
  let next := b.taskAvalableFutex.notifyStep pc
  ({ b with
      taskAvalableFutex := next.1
      pc := if pc = .futexWake then b.pc.woken else b.pc }, next.2)

/-! ## §2. `~BgRunner`. -/

/-- Control points of `~BgRunner`: `request_stop()` of each core; then for each
core `~BgThread`, which is `request_stop()`, `wake_up()`, the loop of
`ensure_thread_stopped()` and `m_os_thread.join()`. -/
inductive DtorPc (n : ℕ) where
  | notEntered
  | requestStop (core : Fin n)
  | stopThread (core : Fin n)
  | wakeUp (core : Fin n) (pc : NotifyPc)
  | ensureLoad (core : Fin n)
  | ensureWakeUp (core : Fin n) (pc : NotifyPc)
  | join (core : Fin n)
  | done
  deriving DecidableEq

variable {n : ℕ}

/-- `~BgRunner` enters its loop over `m_cpu_core_list`. -/
def enterDtor (n : ℕ) : DtorPc n := if h : 0 < n then .requestStop ⟨0, h⟩ else .done

/-- The loop goes on, or the list is destroyed. -/
def nextRequest (core : Fin n) : DtorPc n :=
  if h : core.val + 1 < n then .requestStop ⟨core.val + 1, h⟩
  else .stopThread ⟨0, Nat.lt_of_le_of_lt (Nat.zero_le core.val) core.isLt⟩

/-- The next element of the list is destroyed, or there is none. -/
def nextThread (core : Fin n) : DtorPc n :=
  if h : core.val + 1 < n then .stopThread ⟨core.val + 1, h⟩ else .done

structure State (E : Type*) (n : ℕ) where
  sleepCount : UInt32
  cores : Fin n → BgThread
  /-- where another thread stands in the `wake_up()` of a core -/
  notifier : E → Option (Fin n × NotifyPc)
  dtor : DtorPc n

/-- What may happen next: a step of a BgThread's OS thread, another thread calls
`wake_up()` or performs a step of it, some thread enters `~BgRunner` or
performs a step of it, the program does something else. -/
inductive Label (E : Type*) (n : ℕ) where
  | thread (c : Fin n) (more : Bool)
  | wakeUp (e : E) (c : Fin n)
  | notify (e : E)
  | destroy
  | dtor
  | other

variable {E : Type*} [DecidableEq E]

def State.setCore (s : State E n) (c : Fin n) (b : BgThread) : State E n :=
  { s with cores := Function.update s.cores c b }

def dtorStep (s : State E n) : Option (State E n) :=
  match s.dtor with
  | .notEntered => none
  | .requestStop core =>
      some { s.setCore core { s.cores core with stopRequested := true } with
        dtor := nextRequest core }
  | .stopThread core =>
      some { s.setCore core { s.cores core with stopRequested := true } with
        dtor := .wakeUp core .load }
  | .wakeUp core pc =>
      let r := wakeUp (s.cores core) pc
      some { s.setCore core r.1 with
        dtor := match r.2 with
          | some pc' => .wakeUp core pc'
          | none => .ensureLoad core }
  | .ensureLoad core =>
      some { s with dtor := if (s.cores core).threadStopped then .join core
                      else .ensureWakeUp core .load }
  | .ensureWakeUp core pc =>
      let r := wakeUp (s.cores core) pc
      some { s.setCore core r.1 with
        dtor := match r.2 with
          | some pc' => .ensureWakeUp core pc'
          | none => .ensureLoad core }
  | .join core =>
      if (s.cores core).pc = .ended then some { s with dtor := nextThread core } else none
  | .done => none

def step (s : State E n) : Label E n → Option (State E n)
  | .thread c more =>
      (threadStep more s.sleepCount (s.cores c)).map (fun r =>
        { s.setCore c r.2 with sleepCount := r.1 })
  | .wakeUp e c =>
      if s.notifier e = none then
        some { s with notifier := Function.update s.notifier e (some (c, .load)) }
      else none
  | .notify e =>
      match s.notifier e with
      | none => none
      | some (c, pc) =>
          let r := wakeUp (s.cores c) pc
          some { s.setCore c r.1 with
            notifier := Function.update s.notifier e (r.2.map (fun pc' => (c, pc'))) }
  | .destroy => if s.dtor = .notEntered then some { s with dtor := enterDtor n } else none
  | .dtor => dtorStep s
  | .other => some s

def initial (E : Type*) (n : ℕ) : State E n where
  sleepCount := 0
  cores := fun _ => {}
  notifier := fun _ => none
  dtor := .notEntered

def machine (E : Type*) [DecidableEq E] (n : ℕ) : Machine (State E n) (Label E n) where
  init := fun s => s = initial E n
  step := step

/-! ## §3. What holds of one BgThread.

`phase` is how far `~BgRunner` has got with the BgThread: 1 after its first
request, 2 from the call of `wake_up()` on, 3 once `m_thread_stopped` has been
read as true, 4 after the join; `m` is where that first `wake_up()` stands. -/

/-- Where the thread stands in its `Futex::wait`; `none` before it looks at
`m_stop_requested` again. -/
def ThreadPc.waiting : ThreadPc → Option WaitPc
  | .addSleep => some .load
  | .wait pc => some pc
  | _ => none

/-- Between the two updates of `m_sleep_count`. -/
def ThreadPc.sleeping : ThreadPc → Bool
  | .wait _ | .subSleep => true
  | _ => false

/-- The thread has decided to return. -/
def ThreadPc.stopping : ThreadPc → Bool
  | .guard | .returned | .ended => true
  | _ => false

/-- `thread_function` has returned. -/
def ThreadPc.hasReturned : ThreadPc → Bool
  | .returned | .ended => true
  | _ => false

structure CoreInv (phase : ℕ) (m : Option NotifyPc) (b : BgThread) : Prop where
  counted : Counted b.taskAvalableFutex (fun _ : Unit => b.pc.waiting)
  stopped : b.threadStopped = b.pc.hasReturned
  stopping : b.pc.stopping = true → b.stopRequested = true
  requested : b.stopRequested = true ↔ 1 ≤ phase
  woken : 2 ≤ phase → Wakes b.taskAvalableFutex (fun _ : Unit => b.pc.waiting) (fun _ : Unit => m)
  seen : 3 ≤ phase → b.threadStopped = true
  joined : 4 ≤ phase → b.pc = .ended

section Core

variable {phase : ℕ} {m m' : Option NotifyPc} {b b' : BgThread} {more : Bool} {k k' : UInt32}
  {pc : NotifyPc}

theorem coreInv_initial : CoreInv 0 none {} where
  counted := by simp [Counted, Futex.counted, ThreadPc.waiting]
  stopped := rfl
  stopping := fun h => by cases h
  requested := by simp
  woken := by omega
  seen := by omega
  joined := by omega

/-- The futex has one waiter, and `~BgRunner` is one notifier. -/
theorem update_only {α : Type*} (a r : α) :
    Function.update (fun _ : Unit => a) () r = fun _ => r := by
  funext u
  simp

/-- A step outside `Futex::wait`, to a point from which the thread looks at
`m_stop_requested` before it can block. -/
theorem CoreInv.look (h : CoreInv phase m b) {p : ThreadPc} {stopped : Bool}
    (hb : b.pc.waiting = none ∨ b.pc.waiting = some .load) (hp : p.waiting = none)
    (hreturned : stopped = p.hasReturned) (hmono : b.threadStopped = true → stopped = true)
    (hstopping : p.stopping = true → b.stopRequested = true)
    (hended : b.pc = .ended → p = .ended) :
    CoreInv phase m { b with threadStopped := stopped, pc := p } where
  counted := by
    have := h.counted
    unfold Counted at this ⊢
    rw [this, counted_congr]
    intro _
    rcases hb with hb | hb <;> simp [hb, hp, WaitPc.counts]
  stopped := hreturned
  stopping := hstopping
  requested := h.requested
  woken := fun _ => .of_looking (i := ()) hp
  seen := fun hphase => hmono (h.seen hphase)
  joined := fun hphase => hended (h.joined hphase)

/-- A step at which the thread goes on to wait. -/
theorem CoreInv.towardsWait (h : CoreInv phase m b) {p : ThreadPc} (hb : b.pc.stopping = false)
    (hp : p.waiting = some .load) (hsame : b.pc.waiting = some .load ∨ phase = 0)
    (hcounted : b.pc.waiting = none ∨ b.pc.waiting = some .load) (hstop : p.stopping = false)
    (hreturned : p.hasReturned = false) :
    CoreInv phase m { b with pc := p } where
  counted := by
    have := h.counted
    unfold Counted at this ⊢
    rw [this, counted_congr]
    intro _
    rcases hcounted with hcounted | hcounted <;> simp [hcounted, hp, WaitPc.counts]
  stopped := by
    have := h.stopped
    cases hpc : b.pc <;> simp_all [ThreadPc.stopping, ThreadPc.hasReturned]
  stopping := fun hstop' => by simp [hstop] at hstop'
  requested := h.requested
  woken := by
    intro hphase
    rcases hsame with hsame | hsame
    · have := h.woken hphase
      rwa [hsame, ← hp] at this
    · omega
  seen := h.seen
  joined := by
    intro hphase
    have hended := h.joined hphase
    rw [hended] at hb
    cases hb

/-- A step inside `Futex::wait`. -/
theorem CoreInv.waitStep (h : CoreInv phase m b) {w : WaitPc} (hb : b.pc = .wait w)
    {f : Futex} {r : Option WaitPc} (hs : b.taskAvalableFutex.waitStep w = some (f, r))
    {p : ThreadPc} (hp : p.waiting = r) (hstop : p.stopping = false)
    (hreturned : p.hasReturned = false) :
    CoreInv phase m { b with taskAvalableFutex := f, pc := p } where
  counted := by
    have := h.counted.wait (i := ()) (by simp [hb, ThreadPc.waiting]) hs
    rwa [update_only, ← hp] at this
  stopped := by
    have := h.stopped
    simp_all [ThreadPc.hasReturned]
  stopping := fun hstop' => by simp [hstop] at hstop'
  requested := h.requested
  woken := by
    intro hphase
    have := (h.woken hphase).wait (i := ()) (by simp [hb, ThreadPc.waiting]) hs
    rwa [update_only, ← hp] at this
  seen := h.seen
  joined := fun hphase => by
    have := h.joined hphase
    rw [hb] at this
    cases this

/-- Every step of the thread keeps the invariant. -/
theorem coreInv_threadStep (h : CoreInv phase m b) (hs : threadStep more k b = some (k', b')) :
    CoreInv phase m b' := by
  have hreturned := h.stopped
  cases hpc : b.pc with
  | schedule =>
      simp only [threadStep, hpc] at hs
      injection hs with hs
      injection hs with _ hs
      subst hs
      exact h.look (.inl (by rw [hpc]; rfl)) (by cases more <;> rfl)
        (by rw [hreturned, hpc]; cases more <;> rfl) id (by cases more <;> intro hp <;> cases hp)
        (by rw [hpc]; intro hp; cases hp)
  | stopAfterSchedule =>
      simp only [threadStep, hpc] at hs
      injection hs with hs
      injection hs with _ hs
      subst hs
      cases hstop : b.stopRequested with
      | true =>
          simp only [if_true]
          exact hstop ▸ h.look (.inl (by rw [hpc]; rfl)) rfl (by rw [hreturned, hpc]; rfl) id
            (fun _ => hstop) (by rw [hpc]; intro hp; cases hp)
      | false =>
          -- nobody has requested the stop yet
          have hphase : phase = 0 := by
            by_contra hne
            have := h.requested.mpr (by omega)
            simp [hstop] at this
          simp only [Bool.false_eq_true, if_false]
          exact hstop ▸ h.towardsWait (by rw [hpc]; rfl) rfl (.inr hphase) (.inl (by rw [hpc]; rfl))
            rfl rfl
  | addSleep =>
      simp only [threadStep, hpc] at hs
      injection hs with hs
      injection hs with _ hs
      subst hs
      exact h.towardsWait (by rw [hpc]; rfl) rfl (.inl (by rw [hpc]; rfl)) (.inr (by rw [hpc]; rfl))
        rfl rfl
  | wait w =>
      simp only [threadStep, hpc] at hs
      obtain ⟨⟨f, r⟩, hnext, hs⟩ := Option.map_eq_some_iff.mp hs
      injection hs with _ hs
      subst hs
      cases r with
      | none => exact h.waitStep hpc hnext rfl rfl rfl
      | some w' => exact h.waitStep hpc hnext rfl rfl rfl
  | subSleep =>
      simp only [threadStep, hpc] at hs
      injection hs with hs
      injection hs with _ hs
      subst hs
      exact h.look (.inl (by rw [hpc]; rfl)) rfl (by rw [hreturned, hpc]; rfl) id
        (fun hp => by cases hp) (by rw [hpc]; intro hp; cases hp)
  | stopAfterWait =>
      simp only [threadStep, hpc] at hs
      injection hs with hs
      injection hs with _ hs
      subst hs
      cases hstop : b.stopRequested with
      | true =>
          simp only [if_true]
          exact hstop ▸ h.look (.inl (by rw [hpc]; rfl)) rfl (by rw [hreturned, hpc]; rfl) id
            (fun _ => hstop) (by rw [hpc]; intro hp; cases hp)
      | false =>
          simp only [Bool.false_eq_true, if_false]
          exact hstop ▸ h.look (.inl (by rw [hpc]; rfl)) rfl (by rw [hreturned, hpc]; rfl) id
            (fun hp => by cases hp) (by rw [hpc]; intro hp; cases hp)
  | guard =>
      simp only [threadStep, hpc] at hs
      injection hs with hs
      injection hs with _ hs
      subst hs
      exact h.look (.inl (by rw [hpc]; rfl)) rfl rfl (fun _ => rfl)
        (fun _ => h.stopping (by rw [hpc]; rfl)) (by rw [hpc]; intro hp; cases hp)
  | returned =>
      simp only [threadStep, hpc] at hs
      injection hs with hs
      injection hs with _ hs
      subst hs
      exact h.look (.inl (by rw [hpc]; rfl)) rfl (by rw [hreturned, hpc]; rfl) id
        (fun _ => h.stopping (by rw [hpc]; rfl)) (fun _ => rfl)
  | ended =>
      simp only [threadStep, hpc] at hs
      cases hs

/-- The waiters that a `FUTEX_WAKE` unblocks. -/
def unblocked (pc : ThreadPc) : Finset Unit := if pc = .wait .blocked then {()} else ∅

theorem waiting_woken (p : ThreadPc) :
    (fun _ : Unit => p.woken.waiting) = Futex.wakeUp (fun _ => p.waiting) (unblocked p) := by
  funext u
  by_cases hp : p = .wait .blocked
  · subst hp
    simp [unblocked, Futex.wakeUp, ThreadPc.woken, ThreadPc.waiting]
  · have hsame : p.woken = p := by
      unfold ThreadPc.woken
      split
      · exact absurd rfl hp
      · rfl
    simp [unblocked, Futex.wakeUp, hp, hsame]

theorem mem_unblocked (p : ThreadPc) (u : Unit) (hu : u ∈ unblocked p) :
    p.waiting = some .blocked := by
  by_cases hp : p = .wait .blocked
  · rw [hp]
    rfl
  · simp [unblocked, hp] at hu

/-- A `FUTEX_WAKE` unblocks the waiter, or finds it awake. -/
theorem unblocked_or (p : ThreadPc) :
    (unblocked p).Nonempty ∨ ∃ _ : Unit, p.waiting ≠ some .blocked := by
  by_cases hp : p = .wait .blocked
  · exact .inl (by simp [unblocked, hp])
  · refine .inr ⟨(), fun hw => hp ?_⟩
    cases p <;> simp_all [ThreadPc.waiting]

@[simp] theorem woken_stopping (p : ThreadPc) : p.woken.stopping = p.stopping := by
  unfold ThreadPc.woken
  split <;> rfl

@[simp] theorem woken_sleeping (p : ThreadPc) : p.woken.sleeping = p.sleeping := by
  unfold ThreadPc.woken
  split <;> rfl

@[simp] theorem woken_hasReturned (p : ThreadPc) : p.woken.hasReturned = p.hasReturned := by
  unfold ThreadPc.woken
  split <;> rfl

/-- `notify()` never touches the waiter counter. -/
theorem notifyStep_counter (f : Futex) (pc : NotifyPc) :
    (f.notifyStep pc).1.waitCounter = f.waitCounter := by
  cases pc <;> simp [Futex.notifyStep]

/-- `notify()` never takes the flag down. -/
theorem notifyStep_flag (f : Futex) (pc : NotifyPc) (h : f.workAvalable ≠ 0) :
    (f.notifyStep pc).1.workAvalable ≠ 0 := by
  cases pc <;> simp [Futex.notifyStep, h]

/-- A step of a call of `wake_up()`, whose part in the guarantee is given. -/
theorem CoreInv.wakeUp (h : CoreInv phase m b)
    (hwakes : 2 ≤ phase →
      Wakes (wakeUp b pc).1.taskAvalableFutex (fun _ : Unit => (wakeUp b pc).1.pc.waiting)
        (fun _ : Unit => m')) :
    CoreInv phase m' (wakeUp b pc).1 where
  counted := by
    have hcounted : Counted (b.taskAvalableFutex.notifyStep pc).1
        (fun _ : Unit => b.pc.waiting) := by
      have := h.counted
      unfold Counted at this ⊢
      rw [notifyStep_counter, this]
    simp only [Stopping.wakeUp]
    split
    · rw [waiting_woken]
      exact hcounted.wake (mem_unblocked b.pc)
    · exact hcounted
  stopped := by
    have := h.stopped
    simp only [Stopping.wakeUp]
    split <;> simpa using this
  stopping := by
    have := h.stopping
    simp only [Stopping.wakeUp]
    split <;> simpa using this
  requested := h.requested
  woken := hwakes
  seen := h.seen
  joined := by
    intro hphase
    have := h.joined hphase
    simp only [Stopping.wakeUp]
    split <;> simp [this, ThreadPc.woken]

/-- A step of somebody else's call of `wake_up()`. -/
theorem coreInv_wakeUp (h : CoreInv phase m b) : CoreInv phase m (wakeUp b pc).1 := by
  refine h.wakeUp fun hphase => ?_
  have hwakes := (h.woken hphase).congr (notifyStep_flag b.taskAvalableFutex pc)
  simp only [wakeUp]
  split
  · rw [waiting_woken]
    exact hwakes.wakeUp _
  · exact hwakes

/-- A step of the first call of `wake_up()` in `stop_thread()`. -/
theorem coreInv_stopWakeUp (h : CoreInv phase (some pc) b) :
    CoreInv phase (wakeUp b pc).2 (wakeUp b pc).1 := by
  refine h.wakeUp fun hphase => ?_
  have hwakes := h.woken hphase
  by_cases hpc : pc = .futexWake
  · subst hpc
    simp only [wakeUp, if_true, Futex.notifyStep]
    rw [waiting_woken, ← update_only (some NotifyPc.futexWake) none]
    exact hwakes.wake (j := ()) (unblocked_or b.pc) rfl
  · have hcount := h.counted.not_all_blocked (by simp)
    have hstep := hwakes.notify (j := ()) rfl hpc hcount (Prod.mk.eta).symm
    simp only [wakeUp, hpc, if_false]
    rwa [update_only] at hstep

/-- `request_stop()`. -/
theorem CoreInv.request (h : CoreInv phase m b) :
    CoreInv 1 m { b with stopRequested := true } where
  counted := h.counted
  stopped := h.stopped
  stopping := fun _ => rfl
  requested := by simp
  woken := by omega
  seen := by omega
  joined := by omega

/-- `stop_thread()` calls `wake_up()`. -/
theorem CoreInv.enterWakeUp (h : CoreInv 1 m b) : CoreInv 2 (some .load) b :=
  { h with
    requested := ⟨by omega, fun _ => h.requested.mpr (by omega)⟩
    woken := fun _ => .of_notifying (j := ()) rfl
    seen := by omega
    joined := by omega }

/-- `ensure_thread_stopped()` has read `m_thread_stopped` as true. -/
theorem CoreInv.see (h : CoreInv 2 m b) (hstopped : b.threadStopped = true) : CoreInv 3 m b :=
  { h with
    requested := ⟨by omega, fun _ => h.requested.mpr (by omega)⟩
    woken := fun _ => h.woken (by omega)
    seen := fun _ => hstopped
    joined := by omega }

/-- The OS thread has been joined. -/
theorem CoreInv.join (h : CoreInv 3 m b) (hended : b.pc = .ended) : CoreInv 4 m b :=
  { h with
    requested := ⟨by omega, fun _ => h.requested.mpr (by omega)⟩
    woken := fun _ => h.woken (by omega)
    seen := fun _ => h.seen (by omega)
    joined := fun _ => hended }

end Core

/-! ## §4. The invariant. -/

/-- How far `~BgRunner` has got with BgThread `c`. -/
def DtorPc.phase (c : Fin n) : DtorPc n → ℕ
  | .notEntered => 0
  | .requestStop core => if c < core then 1 else 0
  | .stopThread core => if c < core then 4 else 1
  | .wakeUp core _ | .ensureLoad core | .ensureWakeUp core _ =>
      if c < core then 4 else if c = core then 2 else 1
  | .join core => if c < core then 4 else if c = core then 3 else 1
  | .done => 4

/-- Where the first `wake_up()` of `stop_thread()` of BgThread `c` stands. -/
def DtorPc.stopWakeUp (c : Fin n) : DtorPc n → Option NotifyPc
  | .wakeUp core pc => if c = core then some pc else none
  | _ => none

@[simp] theorem phase_enterDtor (c : Fin n) : (enterDtor n).phase c = 0 := by
  have hn : 0 < n := Nat.lt_of_le_of_lt (Nat.zero_le _) c.isLt
  simp [enterDtor, hn, DtorPc.phase, Fin.lt_def]

@[simp] theorem stopWakeUp_enterDtor (c : Fin n) : (enterDtor n).stopWakeUp c = none := by
  unfold enterDtor
  split <;> rfl

theorem lt_succ_core {c core : Fin n} (h : core.val + 1 < n) : c < ⟨core.val + 1, h⟩ ↔ c ≤ core :=
  Nat.lt_succ_iff

/-- The last core has nobody behind it. -/
theorem le_last_core {core : Fin n} (h : ¬ core.val + 1 < n) (c : Fin n) : c ≤ core := by
  have := c.isLt
  exact Fin.le_def.mpr (by omega)

@[simp] theorem phase_nextRequest (c core : Fin n) :
    (nextRequest core).phase c = if c ≤ core then 1 else 0 := by
  unfold nextRequest
  split
  next h => simp only [DtorPc.phase, lt_succ_core]
  next h => simp [DtorPc.phase, Fin.lt_def, le_last_core h c]

@[simp] theorem stopWakeUp_nextRequest (c core : Fin n) :
    (nextRequest core).stopWakeUp c = none := by
  unfold nextRequest
  split <;> rfl

@[simp] theorem phase_nextThread (c core : Fin n) :
    (nextThread core).phase c = if c ≤ core then 4 else 1 := by
  unfold nextThread
  split
  next h => simp only [DtorPc.phase, lt_succ_core]
  next h => simp [DtorPc.phase, le_last_core h c]

@[simp] theorem stopWakeUp_nextThread (c core : Fin n) :
    (nextThread core).stopWakeUp c = none := by
  unfold nextThread
  split <;> rfl

structure Inv (s : State E n) : Prop where
  cores : ∀ c, CoreInv (s.dtor.phase c) (s.dtor.stopWakeUp c) (s.cores c)
  counts : Counts s.sleepCount (fun c => (s.cores c).pc.sleeping)

omit [DecidableEq E] in
theorem inv_initial : Inv (initial E n) where
  cores := fun _ => coreInv_initial
  counts := counts_zero fun _ => rfl

omit [DecidableEq E] in
/-- A step that changes one BgThread, asleep or awake as before. -/
theorem Inv.setCore {s : State E n} (h : Inv s) {c : Fin n} {b : BgThread} {d : DtorPc n}
    {w : E → Option (Fin n × NotifyPc)} (hsleep : b.pc.sleeping = (s.cores c).pc.sleeping)
    (hother : ∀ c', c' ≠ c → d.phase c' = s.dtor.phase c' ∧ d.stopWakeUp c' = s.dtor.stopWakeUp c')
    (hcore : CoreInv (d.phase c) (d.stopWakeUp c) b) :
    Inv { s.setCore c b with dtor := d, notifier := w } where
  cores := by
    intro c'
    by_cases hc : c' = c
    · subst hc
      simpa [State.setCore] using hcore
    · have := h.cores c'
      simpa [State.setCore, hc, (hother c' hc).1, (hother c' hc).2] using this
  counts := by
    refine h.counts.congr fun c' => ?_
    by_cases hc : c' = c
    · subst hc
      simp [State.setCore, hsleep]
    · simp [State.setCore, hc]

omit [DecidableEq E] in
/-- A step of `~BgRunner` that only looks at one BgThread. -/
theorem Inv.setDtor {s : State E n} (h : Inv s) {c : Fin n} {d : DtorPc n}
    (hother : ∀ c', c' ≠ c → d.phase c' = s.dtor.phase c' ∧ d.stopWakeUp c' = s.dtor.stopWakeUp c')
    (hcore : CoreInv (d.phase c) (d.stopWakeUp c) (s.cores c)) : Inv { s with dtor := d } := by
  have := h.setCore (b := s.cores c) (w := s.notifier) rfl hother hcore
  simpa [State.setCore] using this

omit [DecidableEq E] in
/-- The two updates of `m_sleep_count` are at the ends of the sleep. -/
theorem counts_threadStep {s : State E n}
    (h : Counts s.sleepCount (fun c => (s.cores c).pc.sleeping))
    {c : Fin n} {more : Bool} {k : UInt32} {b : BgThread}
    (hs : threadStep more s.sleepCount (s.cores c) = some (k, b)) :
    Counts k (fun c' => (Function.update s.cores c b c').pc.sleeping) := by
  have hother : ∀ c', c' ≠ c →
      (Function.update s.cores c b c').pc.sleeping = (s.cores c').pc.sleeping := by
    intro c' hc
    simp [hc]
  have stays : k = s.sleepCount → b.pc.sleeping = (s.cores c).pc.sleeping →
      Counts k (fun c' => (Function.update s.cores c b c').pc.sleeping) := by
    rintro rfl hsame
    refine h.congr fun c' => ?_
    by_cases hc : c' = c
    · subst hc
      simpa using hsame
    · exact hother c' hc
  cases hpc : (s.cores c).pc with
  | addSleep =>
      simp only [threadStep, hpc] at hs
      injection hs with hs
      injection hs with hk hb
      subst hk hb
      exact h.enter (i := c) (by simp [hpc, ThreadPc.sleeping]) (by simp [ThreadPc.sleeping]) hother
  | subSleep =>
      simp only [threadStep, hpc] at hs
      injection hs with hs
      injection hs with hk hb
      subst hk hb
      exact h.leave (i := c) (by simp [hpc, ThreadPc.sleeping]) (by simp [ThreadPc.sleeping]) hother
  | wait w =>
      simp only [threadStep, hpc] at hs
      obtain ⟨⟨f, r⟩, -, hs⟩ := Option.map_eq_some_iff.mp hs
      injection hs with hk hb
      subst hk hb
      exact stays rfl (by rw [hpc]; cases r <;> rfl)
  | schedule =>
      simp only [threadStep, hpc] at hs
      injection hs with hs
      injection hs with hk hb
      subst hk hb
      exact stays rfl (by rw [hpc]; cases more <;> rfl)
  | stopAfterSchedule | stopAfterWait =>
      simp only [threadStep, hpc] at hs
      injection hs with hs
      injection hs with hk hb
      subst hk hb
      exact stays rfl (by rw [hpc]; cases (s.cores c).stopRequested <;> rfl)
  | guard | returned =>
      simp only [threadStep, hpc] at hs
      injection hs with hs
      injection hs with hk hb
      subst hk hb
      exact stays rfl (by rw [hpc]; rfl)
  | ended =>
      simp only [threadStep, hpc] at hs
      cases hs

/-- `wake_up()` leaves nobody's `m_sleep_count` out. -/
theorem wakeUp_sleeping (b : BgThread) (pc : NotifyPc) :
    (wakeUp b pc).1.pc.sleeping = b.pc.sleeping := by
  simp only [wakeUp]
  split <;> simp

omit [DecidableEq E] in
theorem inv_dtorStep {s t : State E n} (h : Inv s) (hs : dtorStep s = some t) : Inv t := by
  cases hd : s.dtor with
  | notEntered | done =>
      simp only [dtorStep, hd] at hs
      cases hs
  | requestStop core =>
      simp only [dtorStep, hd] at hs
      injection hs with hs
      subst hs
      have hcore := h.cores core
      refine h.setCore rfl (fun c hc => ?_) ?_
      · have hlt : c ≤ core ↔ c < core := ⟨fun hle => lt_of_le_of_ne hle hc, le_of_lt⟩
        rw [hd, phase_nextRequest, stopWakeUp_nextRequest]
        simp only [DtorPc.phase, DtorPc.stopWakeUp, hlt, and_self]
      · simp only [phase_nextRequest, le_refl, if_true, stopWakeUp_nextRequest]
        simp only [hd, DtorPc.stopWakeUp] at hcore
        exact hcore.request
  | stopThread core =>
      simp only [dtorStep, hd] at hs
      injection hs with hs
      subst hs
      have hcore := h.cores core
      refine h.setCore rfl (fun c hc => ?_) ?_
      · rw [hd]
        simp [DtorPc.phase, DtorPc.stopWakeUp, hc]
      · simp only [hd, DtorPc.phase, DtorPc.stopWakeUp, lt_irrefl, if_false, if_true] at hcore ⊢
        exact hcore.request.enterWakeUp
  | wakeUp core pc =>
      simp only [dtorStep, hd] at hs
      injection hs with hs
      subst hs
      have hcore := h.cores core
      simp only [hd, DtorPc.phase, DtorPc.stopWakeUp, lt_irrefl, if_false, if_true] at hcore
      refine h.setCore (wakeUp_sleeping _ _) (fun c hc => ?_) ?_
      · rw [hd]
        split <;> simp [DtorPc.phase, DtorPc.stopWakeUp, hc]
      · have hnext := coreInv_stopWakeUp hcore
        split
        next pc' hpc' =>
          rw [hpc'] at hnext
          simpa [DtorPc.phase, DtorPc.stopWakeUp] using hnext
        next hpc' =>
          rw [hpc'] at hnext
          simpa [DtorPc.phase, DtorPc.stopWakeUp] using hnext
  | ensureLoad core =>
      simp only [dtorStep, hd] at hs
      injection hs with hs
      subst hs
      have hcore := h.cores core
      simp only [hd, DtorPc.phase, DtorPc.stopWakeUp, lt_irrefl, if_false, if_true] at hcore
      cases hstopped : (s.cores core).threadStopped with
      | true =>
          refine h.setDtor (c := core) (fun c hc => ?_) ?_
          · rw [hd]
            simp [DtorPc.phase, DtorPc.stopWakeUp, hc]
          · simpa [DtorPc.phase, DtorPc.stopWakeUp] using hcore.see hstopped
      | false =>
          refine h.setDtor (c := core) (fun c hc => ?_) ?_
          · rw [hd]
            simp [DtorPc.phase, DtorPc.stopWakeUp]
          · simpa [DtorPc.phase, DtorPc.stopWakeUp] using hcore
  | ensureWakeUp core pc =>
      simp only [dtorStep, hd] at hs
      injection hs with hs
      subst hs
      have hcore := h.cores core
      simp only [hd, DtorPc.phase, DtorPc.stopWakeUp, lt_irrefl, if_false, if_true] at hcore
      refine h.setCore (wakeUp_sleeping _ _) (fun c hc => ?_) ?_
      · rw [hd]
        split <;> simp [DtorPc.phase, DtorPc.stopWakeUp]
      · have hnext : CoreInv _ _ (wakeUp (s.cores core) pc).1 := coreInv_wakeUp hcore
        split <;> simpa [DtorPc.phase, DtorPc.stopWakeUp] using hnext
  | join core =>
      simp only [dtorStep, hd] at hs
      split at hs
      next hended =>
        injection hs with hs
        subst hs
        have hcore := h.cores core
        simp only [hd, DtorPc.phase, DtorPc.stopWakeUp, lt_irrefl, if_false, if_true] at hcore
        refine h.setDtor (c := core) (fun c hc => ?_) ?_
        · have hlt : c ≤ core ↔ c < core := ⟨fun hle => lt_of_le_of_ne hle hc, le_of_lt⟩
          rw [hd, phase_nextThread, stopWakeUp_nextThread]
          simp only [DtorPc.phase, DtorPc.stopWakeUp, hlt, hc, if_false, and_self]
        · simpa using hcore.join hended
      next => cases hs

theorem inv_step (s : State E n) (l : Label E n) (t : State E n) (h : Inv s)
    (hs : step s l = some t) : Inv t := by
  cases l with
  | thread c more =>
      obtain ⟨⟨k, b⟩, hnext, rfl⟩ := Option.map_eq_some_iff.mp hs
      refine ⟨fun c' => ?_, counts_threadStep h.counts hnext⟩
      by_cases hc : c' = c
      · subst hc
        simpa [State.setCore] using coreInv_threadStep (h.cores c') hnext
      · simpa [State.setCore, hc] using h.cores c'
  | wakeUp e c =>
      simp only [step] at hs
      split at hs
      next =>
        injection hs with hs
        subst hs
        exact ⟨h.cores, h.counts⟩
      next => cases hs
  | notify e =>
      simp only [step] at hs
      split at hs
      next => cases hs
      next c pc hnotifier =>
        injection hs with hs
        subst hs
        exact h.setCore (wakeUp_sleeping _ _) (fun _ _ => ⟨rfl, rfl⟩)
          (coreInv_wakeUp (h.cores c))
  | destroy =>
      simp only [step] at hs
      split at hs
      next hd =>
        injection hs with hs
        subst hs
        refine ⟨fun c => ?_, h.counts⟩
        have := h.cores c
        simp only [hd, DtorPc.phase, DtorPc.stopWakeUp] at this
        simpa using this
      next => cases hs
  | dtor => exact inv_dtorStep h hs
  | other =>
      injection hs with hs
      subst hs
      exact h

theorem inv_reach {ok : State E n → Label E n → Prop} {s : State E n}
    (h : (machine E n).Reach ok s) : Inv s :=
  h.invariant (fun _ h0 => h0 ▸ inv_initial) (fun s l t hs _ hstep => inv_step s l t hs hstep)

/-! ## §5. What `~BgRunner` can rely on. -/

/-- BgThread `c` has been joined and destroyed. -/
def DtorPc.Destroyed (c : Fin n) (d : DtorPc n) : Prop := d.phase c = 4

/-- In `ensure_thread_stopped()` of BgThread `c`. -/
def DtorPc.Ensuring (c : Fin n) (d : DtorPc n) : Prop :=
  d = .ensureLoad c ∨ ∃ pc, d = .ensureWakeUp c pc

/-- **Stopping is exact.**  In every reachable state `m_thread_stopped` says
whether the thread function has returned, which it does only after
`request_stop()`; a destroyed BgThread has no OS thread left; `m_sleep_count`
is the number of threads inside `BgThread::wait`, and 0 when `~BgRunner` is
through. -/
theorem stops_exactly {s : State E n} (h : (machine E n).Reachable s) :
    (∀ c, (s.cores c).threadStopped = (s.cores c).pc.hasReturned) ∧
      (∀ c, (s.cores c).pc.stopping = true → 1 ≤ s.dtor.phase c) ∧
      (∀ c, s.dtor.Destroyed c → (s.cores c).pc = .ended) ∧
      Counts s.sleepCount (fun c => (s.cores c).pc.sleeping) ∧
      (s.dtor = .done → s.sleepCount = 0) := by
  have hs := inv_reach h
  have hdestroyed : ∀ c, s.dtor.Destroyed c → (s.cores c).pc = .ended :=
    fun c hc => (hs.cores c).joined (Nat.le_of_eq hc.symm)
  refine ⟨fun c => (hs.cores c).stopped,
    fun c hc => (hs.cores c).requested.mp ((hs.cores c).stopping hc), hdestroyed, hs.counts,
    fun hdone => hs.counts.eq_zero fun c => ?_⟩
  have hended := hdestroyed c (by rw [hdone]; rfl)
  rw [hended]
  rfl

/-- **One `wake_up()` is enough.**  Once the first `wake_up()` of
`stop_thread()` has returned the thread is never blocked. -/
theorem not_blocked_of_woken {s : State E n} (h : (machine E n).Reachable s) {c : Fin n}
    (hd : s.dtor.Ensuring c) : (s.cores c).pc ≠ .wait .blocked := by
  have hcore := (inv_reach h).cores c
  have hphase : s.dtor.phase c = 2 ∧ s.dtor.stopWakeUp c = none := by
    rcases hd with hd | ⟨pc, hd⟩ <;> simp [hd, DtorPc.phase, DtorPc.stopWakeUp]
  rw [hphase.1, hphase.2] at hcore
  intro hblocked
  obtain ⟨_, hm⟩ := (hcore.woken (by omega)).notifier_of_blocked
    (fun _ => by rw [hblocked]; rfl)
  exact hm rfl

/-- The thread of the only BgThread falls asleep in its second wait, and the
stop wakes it. -/
def wokenByStop : List (Label Unit 1) :=
  List.replicate 13 (.thread ⟨0, Nat.one_pos⟩ false) ++ .destroy :: List.replicate 7 .dtor

/-- It returns while `ensure_thread_stopped()` polls, and is joined. -/
def stopAsleep : List (Label Unit 1) :=
  wokenByStop ++ List.replicate 5 (.thread ⟨0, Nat.one_pos⟩ false) ++ List.replicate 4 .dtor

theorem stops_exactly_stopAsleep :
    ∃ s : State Unit 1, s.dtor = .done ∧ (s.cores 0).pc = .ended ∧ s.sleepCount = 0 := by
  obtain ⟨s, hs, hp⟩ := Machine.exists_reach_of_replay (machine Unit 1) stopAsleep
    (fun s => s.dtor == .done) rfl (by decide)
  rw [beq_iff_eq] at hp
  obtain ⟨-, -, hended, -, hsleep⟩ := stops_exactly hs
  exact ⟨s, hp, hended 0 (by rw [hp]; rfl), hsleep hp⟩

theorem not_blocked_of_woken_wokenByStop :
    ∃ s : State Unit 1, s.dtor = .ensureWakeUp 0 .load ∧ (s.cores 0).pc = .wait .subCounter ∧
      (s.cores 0).pc ≠ .wait .blocked := by
  obtain ⟨s, hs, hp⟩ := Machine.exists_reach_of_replay (machine Unit 1) wokenByStop
    (fun s => s.dtor == .ensureWakeUp 0 .load && (s.cores 0).pc == .wait .subCounter) rfl
    (by decide)
  simp only [Bool.and_eq_true, beq_iff_eq] at hp
  exact ⟨s, hp.1, hp.2, not_blocked_of_woken hs (.inr ⟨.load, hp.1⟩)⟩

/-! ## §6. The pool before any stop. -/

/-- Where a BgThread of the pool stands in the whole of `thread_function`. -/
def ThreadPc.ofPool : Pool.BgPc → ThreadPc
  | .schedule => .schedule
  | .addSleep => .addSleep
  | .wait pc => .wait pc
  | .subSleep => .subSleep

/-- The `wake_up()` that an enqueuer is in. -/
def notifierOf (n : ℕ) : Pool.EnqueuePc → Option (Fin n × NotifyPc)
  | .idle | .gate => none
  | .wakeUp core pc => if h : core < n then some (⟨core, h⟩, pc) else none

/-- What a BgThread of the pool looks like here. -/
def coreOf (s : Pool.State E n) (c : Fin n) : BgThread :=
  { taskAvalableFutex := s.futex c, pc := .ofPool (s.bg c) }

/-- The pool as BgThreads of which nobody has requested the stop. -/
def ofPool (s : Pool.State E n) : State E n where
  sleepCount := s.sleepCount
  cores := coreOf s
  notifier := fun e => notifierOf n (s.enqueuer e)
  dtor := .notEntered

section OfPool

variable {s s' : Pool.State E n} {c : Fin n}

omit [DecidableEq E] in
theorem eq_ofPool {t : State E n} (hsleep : t.sleepCount = s.sleepCount)
    (hcores : t.cores = coreOf s) (hnotifier : t.notifier = fun e => notifierOf n (s.enqueuer e))
    (hd : t.dtor = .notEntered) : t = ofPool s := by
  cases t
  simp only at hsleep hcores hnotifier hd
  subst hsleep hcores hnotifier hd
  rfl

/-- A step of the pool that changes one BgThread and the counter. -/
structure Changes (s s' : Pool.State E n) (c : Fin n) : Prop where
  futex : ∀ c', c' ≠ c → s'.futex c' = s.futex c'
  bg : ∀ c', c' ≠ c → s'.bg c' = s.bg c'
  enqueuer : s'.enqueuer = s.enqueuer

omit [DecidableEq E] in
theorem Changes.setCore (h : Changes s s' c) :
    { (ofPool s).setCore c (coreOf s' c) with sleepCount := s'.sleepCount } = ofPool s' := by
  refine eq_ofPool rfl (funext fun c' => ?_) (by rw [h.enqueuer]; rfl) rfl
  by_cases hc : c' = c
  · subst hc
    simp [State.setCore]
  · simp [State.setCore, hc, ofPool, coreOf, h.futex c' hc, h.bg c' hc]

/-- A step of a thread of a BgThread. -/
theorem run_thread {t : State E n} (more : Bool) {k : UInt32} {b : BgThread}
    (h : threadStep more t.sleepCount (t.cores c) = some (k, b)) :
    (machine E n).Run Machine.anyStep t { t.setCore c b with sleepCount := k } :=
  .single (l := .thread c more) trivial (by simp [machine, step, h])

/-- The thread performs one step. -/
theorem Changes.run (h : Changes s s' c) (more : Bool)
    (hs : threadStep more s.sleepCount (coreOf s c) = some (s'.sleepCount, coreOf s' c)) :
    (machine E n).Run Machine.anyStep (ofPool s) (ofPool s') := by
  rw [← h.setCore]
  exact run_thread more hs

/-- The thread performs two steps. -/
theorem Changes.run_twice (h : Changes s s' c) (more : Bool) {k : UInt32} {b : BgThread}
    (hs : threadStep more s.sleepCount (coreOf s c) = some (k, b))
    (hs' : threadStep more k b = some (s'.sleepCount, coreOf s' c)) :
    (machine E n).Run Machine.anyStep (ofPool s) (ofPool s') := by
  have hsecond := run_thread (E := E) (c := c)
    (t := { (ofPool s).setCore c b with sleepCount := k }) more
    (by simpa [State.setCore] using hs')
  rw [← h.setCore]
  simp only [State.setCore, Function.update_idem] at hsecond
  exact (run_thread more hs).trans hsecond

/-- A step of a BgThread of the pool: one step here, and a look at
`m_stop_requested` where there is one. -/
theorem run_bgStep (h : Pool.bgStep s c = some s') :
    (machine E n).Run Machine.anyStep (ofPool s) (ofPool s') := by
  cases hbg : s.bg c with
  | schedule =>
      simp only [Pool.bgStep, hbg] at h
      split at h
      next =>
        injection h with h
        subst h
        refine Changes.run_twice (c := c) ⟨fun _ _ => rfl, fun c' hc => by simp [hc], rfl⟩ false
          (by rw [coreOf, hbg]; rfl) ?_
        simp [threadStep, coreOf, ThreadPc.ofPool]
      next =>
        injection h with h
        subst h
        refine Changes.run (c := c) ⟨fun _ _ => rfl, fun _ _ => rfl, rfl⟩ true ?_
        simp [threadStep, coreOf, ThreadPc.ofPool, hbg]
  | addSleep =>
      simp only [Pool.bgStep, hbg] at h
      injection h with h
      subst h
      refine Changes.run (c := c) ⟨fun _ _ => rfl, fun c' hc => by simp [hc], rfl⟩ true ?_
      simp [threadStep, coreOf, ThreadPc.ofPool, hbg]
  | wait pc =>
      simp only [Pool.bgStep, hbg] at h
      obtain ⟨⟨f, r⟩, hnext, rfl⟩ := Option.map_eq_some_iff.mp h
      refine Changes.run (c := c)
        ⟨fun c' hc => by simp [hc], fun c' hc => by simp [hc], rfl⟩ true ?_
      cases r <;> simp [threadStep, coreOf, ThreadPc.ofPool, hbg, hnext]
  | subSleep =>
      simp only [Pool.bgStep, hbg] at h
      injection h with h
      subst h
      refine Changes.run_twice (c := c) ⟨fun _ _ => rfl, fun c' hc => by simp [hc], rfl⟩ true
        (by rw [coreOf, hbg]; rfl) ?_
      simp [threadStep, coreOf, ThreadPc.ofPool]

/-- The loop of `BgRunner::notify` calls `wake_up()` of the next core, if any. -/
theorem run_nextCore {t : State E n} {e : E} (core : ℕ) (he : t.notifier e = none) :
    (machine E n).Run Machine.anyStep t
      { t with
        notifier := Function.update t.notifier e (notifierOf n (Pool.nextCore n core)) } := by
  by_cases hcore : core < n
  · refine .single (l := .wakeUp e ⟨core, hcore⟩) trivial ?_
    simp [machine, step, he, Pool.nextCore, notifierOf, hcore]
  · have hnone : notifierOf n (Pool.nextCore n core) = none := by
      simp [Pool.nextCore, notifierOf, hcore]
    rw [hnone, ← he, Function.update_eq_self]
    exact .refl t

omit [DecidableEq E] in
theorem coreOf_wakeUp [DecidableEq E] (e : E) (pc : NotifyPc) (c' : Fin n) :
    coreOf (Pool.wakeUpStep s e c pc) c'
      = Function.update (coreOf s) c (wakeUp (coreOf s c) pc).1 c' := by
  by_cases hc : c' = c
  · subst hc
    rw [Function.update_self]
    by_cases hpc : pc = .futexWake
    · by_cases hb : s.bg c' = .wait .blocked
      · simp [coreOf, Pool.wakeUpStep, wakeUp, hpc, hb, ThreadPc.ofPool, ThreadPc.woken]
      · have hsame : (ThreadPc.ofPool (s.bg c')).woken = .ofPool (s.bg c') := by
          cases hbg : s.bg c' with
          | wait w =>
              rw [hbg] at hb
              cases w <;> simp_all [ThreadPc.ofPool, ThreadPc.woken]
          | _ => rfl
        simp [coreOf, Pool.wakeUpStep, wakeUp, hpc, hb, hsame]
    · simp [coreOf, Pool.wakeUpStep, wakeUp, hpc]
  · rw [Function.update_of_ne hc]
    by_cases hb : pc = .futexWake ∧ s.bg c = .wait .blocked <;>
      simp [coreOf, Pool.wakeUpStep, hc, hb]

/-- A step of `wake_up()` in the loop of `BgRunner::notify`. -/
theorem run_wakeUpStep {e : E} {pc : NotifyPc} (he : s.enqueuer e = .wakeUp c pc) :
    (machine E n).Run Machine.anyStep (ofPool s) (ofPool (Pool.wakeUpStep s e c pc)) := by
  have hnotifier : (ofPool s).notifier e = some (c, pc) := by
    simp [ofPool, he, notifierOf]
  have hfirst : (machine E n).Run Machine.anyStep (ofPool s)
      { (ofPool s).setCore c (wakeUp (coreOf s c) pc).1 with
        notifier := Function.update (ofPool s).notifier e
          ((wakeUp (coreOf s c) pc).2.map (fun pc' => (c, pc'))) } :=
    .single (l := .notify e) trivial (by simp only [machine, step, hnotifier]; rfl)
  -- the enqueuer goes on in this core, or to the next one
  have hend : ∀ next, next = notifierOf n ((Pool.wakeUpStep s e c pc).enqueuer e) →
      { (ofPool s).setCore c (wakeUp (coreOf s c) pc).1 with
        notifier := Function.update (ofPool s).notifier e next }
        = ofPool (Pool.wakeUpStep s e c pc) := by
    rintro next rfl
    refine eq_ofPool rfl (funext fun c' => (coreOf_wakeUp e pc c').symm) (funext fun e' => ?_) rfl
    by_cases hee : e' = e
    · subst hee
      simp
    · simp [hee, ofPool, Pool.wakeUpStep]
  cases hnext : (wakeUp (coreOf s c) pc).2 with
  | some pc' =>
      rw [hnext] at hfirst
      rw [← hend (some (c, pc')) (by
        simp only [wakeUp, coreOf] at hnext
        simp [Pool.wakeUpStep, hnext, notifierOf])]
      exact hfirst
  | none =>
      rw [hnext] at hfirst
      rw [← hend (notifierOf n (Pool.nextCore n (c + 1))) (by
        simp only [wakeUp, coreOf] at hnext
        simp [Pool.wakeUpStep, hnext])]
      have hsecond := run_nextCore (E := E) (e := e) (c.val + 1)
        (t := { (ofPool s).setCore c (wakeUp (coreOf s c) pc).1 with
          notifier := Function.update (ofPool s).notifier e none }) (by simp)
      simp only [Function.update_idem] at hsecond
      exact hfirst.trans hsecond

omit [DecidableEq E] in
/-- A step of an enqueuer that is none of the BgThreads' business. -/
theorem ofPool_enqueuer [DecidableEq E] {e : E} {q : ℕ} {pc : Pool.EnqueuePc} :
    ofPool { s with queue := q, enqueuer := Function.update s.enqueuer e pc }
      = { ofPool s with notifier := Function.update (ofPool s).notifier e (notifierOf n pc) } := by
  refine (eq_ofPool rfl rfl (funext fun e' => ?_) rfl).symm
  by_cases hee : e' = e
  · subst hee
    simp
  · simp [hee, ofPool]

/-- A step of the pool is a run of the BgThreads. -/
theorem run_pool {l : Pool.Label E n} (h : Pool.step s l = some s') :
    (machine E n).Run Machine.anyStep (ofPool s) (ofPool s') := by
  cases l with
  | put e =>
      simp only [Pool.step] at h
      split at h
      next he =>
        injection h with h
        subst h
        have hnone : (ofPool s).notifier e = notifierOf n .gate := by simp [ofPool, he, notifierOf]
        rw [ofPool_enqueuer, ← hnone, Function.update_eq_self]
        exact .refl _
      next => cases h
  | notify e =>
      simp only [Pool.step, Pool.notifyStep] at h
      split at h
      next => cases h
      next he =>
        injection h with h
        subst h
        have hnone : (ofPool s).notifier e = none := by simp [ofPool, he, notifierOf]
        rw [ofPool_enqueuer (q := s.queue)]
        split
        · exact run_nextCore 0 hnone
        · rw [show notifierOf n .idle = none from rfl, ← hnone, Function.update_eq_self]
          exact .refl _
      next core pc he =>
        split at h
        next hcore =>
          injection h with h
          subst h
          exact run_wakeUpStep (c := ⟨core, hcore⟩) he
        next => cases h
  | bg c => exact run_bgStep h
  | take =>
      simp only [Pool.step] at h
      split at h
      next => cases h
      next =>
        injection h with h
        subst h
        exact .refl _

/-- **The pool is what happens before a stop.**  Every run of the pool, its
queue and its gate forgotten, is a run of the BgThreads in which nobody
requests a stop. -/
theorem simulates_pool (h : (Pool.machine E n).Reachable s) :
    (machine E n).Reachable (ofPool s) := by
  obtain ⟨t, ht, rfl⟩ := h.simulates (R := fun s t => t = ofPool s)
    (fun s h0 => ⟨ofPool s, by rw [h0]; rfl, rfl⟩)
    (fun s l s' t ht _ hstep => ⟨ofPool s', ht ▸ run_pool hstep, rfl⟩)
  exact ht

end OfPool

end Stopping

end Alterstack
