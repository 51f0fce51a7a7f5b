/-
  Alterstack.Futex.Code — the class `Futex`, one atomic access at a time.

  `Futex::wait` and `Futex::notify` are modelled by their control points; a
  step performs the access at the point and moves on.  `FUTEX_WAIT` blocks iff
  the word is 0 at that instant; a blocked thread has no step of its own, it
  is moved to `subCounter` by the thread that performs the `FUTEX_WAKE`.

  `Wakes` is what a notified futex guarantees to the threads that use it: it
  holds from the notifier's entry into `notify()` on, and every step of every
  waiter and notifier keeps it (`Wakes.wait`, `Wakes.notify`, `Wakes.wake`)
  until a waiter looks for work again.
-/
import Mathlib.Algebra.Group.Nat.Defs
import Mathlib.Data.Fintype.Basic
import Mathlib.Data.Fintype.Card
import Mathlib.Logic.Function.Basic

namespace Alterstack

/-! ## §1. The two atomics and the two member functions. -/

/-- `m_work_avalable` is `std::atomic<int>`, `m_wait_counter` `std::atomic<uint32_t>`. -/
structure Futex where
  workAvalable : Int := 1
  waitCounter : UInt32 := 0
  deriving DecidableEq

namespace Futex

/-- The control points of `Futex::wait`; `blocked` is inside `FUTEX_WAIT`. -/
inductive WaitPc where
  | load
  | exchange
  | addCounter
  | futexWait
  | blocked
  | subCounter
  deriving DecidableEq

/-- The control points of `Futex::notify`. -/
inductive NotifyPc where
  | load
  | store
  | loadCounter
  | futexWake
  deriving DecidableEq

/-- One step of `Futex::wait`: the new futex and the next point, `none` when
`wait()` has returned.  A blocked thread is not enabled. -/
def waitStep (f : Futex) : WaitPc → Option (Futex × Option WaitPc)
  | .load => some (f, some (if f.workAvalable ≠ 0 then .exchange else .addCounter))
  | .exchange =>
      some ({ f with workAvalable := 0 }, if f.workAvalable ≠ 0 then none else some .addCounter)
  | .addCounter => some ({ f with waitCounter := f.waitCounter + 1 }, some .futexWait)
  | .futexWait => some (f, some (if f.workAvalable = 0 then .blocked else .subCounter))
  | .blocked => none
  | .subCounter => some ({ f with waitCounter := f.waitCounter - 1 }, none)

/-- One step of `Futex::notify`: the new futex and the next point, `none` when
`notify()` has returned.  What `FUTEX_WAKE` does to the blocked threads is not
part of the futex's memory (`wakeUp`). -/
def notifyStep (f : Futex) : NotifyPc → Futex × Option NotifyPc
  | .load => (f, some (if f.workAvalable = 0 then .store else .loadCounter))
  | .store => ({ f with workAvalable := 1 }, some .loadCounter)
  | .loadCounter => (f, if f.waitCounter > 0 then some .futexWake else none)
  | .futexWake => (f, none)

/-! ## §2. What a notification in progress guarantees.

`w i` is where thread `i` stands in `wait()`, `none` for a thread that will
look for work before it can block; `m j` is where notifier `j` stands in
`notify()`, `none` outside. -/

section Wakes

variable {ι κ : Type*}

/-- Some notifier has not stored the flag yet, or some waiter is awake for
certain, or the flag is up and either not every waiter is blocked or a
notifier is still about to wake one. -/
def Wakes (f : Futex) (w : ι → Option WaitPc) (m : κ → Option NotifyPc) : Prop :=
  (∃ j, m j = some .load ∨ m j = some .store) ∨
  (∃ i, w i = none ∨ w i = some .subCounter) ∨
  (f.workAvalable ≠ 0 ∧
    ((∃ i, w i ≠ some .blocked) ∨ ∃ j, m j = some .loadCounter ∨ m j = some .futexWake))

variable {f : Futex} {w : ι → Option WaitPc} {m : κ → Option NotifyPc}

theorem Wakes.of_looking {i : ι} (h : w i = none) : Wakes f w m := .inr (.inl ⟨i, .inl h⟩)

theorem Wakes.of_notifying {j : κ} (h : m j = some .load) : Wakes f w m := .inl ⟨j, .inl h⟩

/-- With every waiter blocked, a notifier is still under way. -/
theorem Wakes.notifier_of_blocked (h : Wakes f w m) (hb : ∀ i, w i = some .blocked) :
    ∃ j, m j ≠ none := by
  rcases h with ⟨j, hj⟩ | ⟨i, hi⟩ | ⟨_, ⟨i, hi⟩ | ⟨j, hj⟩⟩
  · exact ⟨j, by rcases hj with hj | hj <;> simp [hj]⟩
  · rcases hi with hi | hi <;> simp [hb i] at hi
  · exact absurd (hb i) hi
  · exact ⟨j, by rcases hj with hj | hj <;> simp [hj]⟩

/-- One step of a waiter's `wait()` keeps the guarantee. -/
theorem Wakes.wait [DecidableEq ι] (h : Wakes f w m) {i : ι} {pc : WaitPc} (hi : w i = some pc)
    {f' : Futex} {r : Option WaitPc} (hs : f.waitStep pc = some (f', r)) :
    Wakes f' (Function.update w i r) m := by
  -- a waiter that looks again, or is certain to wake, settles it
  have settled : r = none ∨ r = some .subCounter → Wakes f' (Function.update w i r) m :=
    fun hr => .inr (.inl ⟨i, by simpa using hr⟩)
  rcases h with hj | ⟨k, hk⟩ | ⟨hw, hrest⟩
  · exact .inl hj
  · by_cases hki : k = i
    · subst hki
      have hpc : pc = .subCounter := by simpa [hi] using hk
      subst hpc
      simp only [waitStep, Option.some.injEq, Prod.mk.injEq] at hs
      exact settled (.inl hs.2.symm)
    · exact .inr (.inl ⟨k, by simpa [hki] using hk⟩)
  · -- the flag is up: the waiter either leaves it up and does not block, or takes it and returns
    cases pc <;> simp only [waitStep, hw, ne_eq, not_false_eq_true, if_true, if_false,
      Option.some.injEq, Prod.mk.injEq, reduceCtorEq] at hs <;> obtain ⟨rfl, rfl⟩ := hs
    · exact .inr (.inr ⟨hw, .inl ⟨i, by simp⟩⟩)
    · exact settled (.inl rfl)
    · exact .inr (.inr ⟨hw, .inl ⟨i, by simp⟩⟩)
    · exact settled (.inr rfl)
    · exact settled (.inl rfl)

/-- One step of a notifier's `notify()` keeps the guarantee, provided a zero
waiter counter means that not every waiter is blocked. -/
theorem Wakes.notify [DecidableEq κ] (h : Wakes f w m) {j : κ} {pc : NotifyPc} (hj : m j = some pc)
    (hpc : pc ≠ .futexWake) (hcount : f.waitCounter = 0 → ∃ i, w i ≠ some .blocked)
    {f' : Futex} {r : Option NotifyPc} (hs : f.notifyStep pc = (f', r)) :
    Wakes f' w (Function.update m j r) := by
  -- the other two alternatives do not depend on where this notifier stands
  have keep : f.workAvalable ≠ 0 → r = some .loadCounter ∨ r = some .futexWake ∨
      (∃ i, w i ≠ some .blocked) → f.workAvalable = f'.workAvalable →
      Wakes f' w (Function.update m j r) := by
    intro hw hr hf
    rw [hf] at hw
    rcases hr with hr | hr | hr
    · exact .inr (.inr ⟨hw, .inr ⟨j, .inl (by simpa using hr)⟩⟩)
    · exact .inr (.inr ⟨hw, .inr ⟨j, .inr (by simpa using hr)⟩⟩)
    · exact .inr (.inr ⟨hw, .inl hr⟩)
  cases pc with
  | load =>
      simp only [notifyStep, Prod.mk.injEq] at hs
      obtain ⟨rfl, rfl⟩ := hs
      by_cases hw : f.workAvalable = 0
      · exact .inl ⟨j, .inr (by simp [hw])⟩
      · exact keep hw (.inl (by simp [hw])) rfl
  | store =>
      simp only [notifyStep, Prod.mk.injEq] at hs
      obtain ⟨rfl, rfl⟩ := hs
      exact .inr (.inr ⟨by simp, .inr ⟨j, .inl (by simp)⟩⟩)
  | loadCounter =>
      simp only [notifyStep, Prod.mk.injEq] at hs
      obtain ⟨rfl, rfl⟩ := hs
      have hother : ∀ k, m k = some .load ∨ m k = some .store → k ≠ j := by
        rintro k hk rfl
        simp [hj] at hk
      rcases h with ⟨k, hk⟩ | hi | ⟨hw, _⟩
      · exact .inl ⟨k, by simpa [hother k hk] using hk⟩
      · exact .inr (.inl hi)
      · refine keep hw ?_ rfl
        by_cases hc : f.waitCounter > 0
        · exact .inr (.inl (by simp [hc]))
        · exact .inr (.inr (hcount (UInt32.le_zero_iff.mp (UInt32.not_lt.mp hc))))
  | futexWake => exact absurd rfl hpc

/-- What `FUTEX_WAKE` does to the waiters it unblocks. -/
def wakeUp [DecidableEq ι] (w : ι → Option WaitPc) (woken : Finset ι) : ι → Option WaitPc :=
  fun i => if i ∈ woken then some .subCounter else w i

/-- A `FUTEX_WAKE` that unblocks somebody, unless not everybody was blocked,
keeps the guarantee. -/
theorem Wakes.wake [DecidableEq ι] [DecidableEq κ] {woken : Finset ι}
    (hwoken : woken.Nonempty ∨ ∃ i, w i ≠ some .blocked) (h : Wakes f w m) {j : κ}
    (hj : m j = some .futexWake) :
    Wakes f (wakeUp w woken) (Function.update m j none) := by
  have hother : ∀ k, m k = some .load ∨ m k = some .store → k ≠ j := by
    rintro k hk rfl
    simp [hj] at hk
  rcases hwoken with ⟨i, hi⟩ | ⟨i, hi⟩
  · exact .inr (.inl ⟨i, .inr (by simp [wakeUp, hi])⟩)
  · rcases h with ⟨k, hk⟩ | ⟨k, hk⟩ | ⟨hw, _⟩
    · exact .inl ⟨k, by simpa [hother k hk] using hk⟩
    · refine .inr (.inl ⟨k, ?_⟩)
      by_cases hk' : k ∈ woken <;> simp [wakeUp, hk', hk]
    · refine .inr (.inr ⟨hw, .inl ⟨i, ?_⟩⟩)
      by_cases hi' : i ∈ woken <;> simp [wakeUp, hi', hi]

/-- A notifier apart from those of `m` that leaves a raised flag raised. -/
theorem Wakes.congr {f' : Futex} (h : Wakes f w m)
    (hf : f.workAvalable ≠ 0 → f'.workAvalable ≠ 0) : Wakes f' w m := by
  rcases h with hj | hi | ⟨hw, hrest⟩
  · exact .inl hj
  · exact .inr (.inl hi)
  · exact .inr (.inr ⟨hf hw, hrest⟩)

/-- The `FUTEX_WAKE` of a notifier apart from those of `m`. -/
theorem Wakes.wakeUp [DecidableEq ι] (h : Wakes f w m) (woken : Finset ι) :
    Wakes f (wakeUp w woken) m := by
  rcases h with hj | ⟨i, hi⟩ | ⟨hw, ⟨i, hi⟩ | hj⟩
  · exact .inl hj
  · refine .inr (.inl ⟨i, ?_⟩)
    by_cases hi' : i ∈ woken <;> simp [Futex.wakeUp, hi', hi]
  · refine .inr (.inr ⟨hw, .inl ⟨i, ?_⟩⟩)
    by_cases hi' : i ∈ woken <;> simp [Futex.wakeUp, hi', hi]
  · exact .inr (.inr ⟨hw, .inr hj⟩)

end Wakes

/-! ## §3. The waiter counter. -/

section Counted

variable {ι : Type*} [Fintype ι]

/-- Between `fetch_add` and `fetch_sub` on `m_wait_counter`. -/
def WaitPc.counts : WaitPc → Bool
  | .futexWait | .blocked | .subCounter => true
  | .load | .exchange | .addCounter => false

/-- The waiters that `m_wait_counter` counts. -/
def counted (w : ι → Option WaitPc) : Finset ι :=
  Finset.univ.filter (fun i => (w i).any WaitPc.counts = true)

/-- The counter is the number of counted waiters, modulo `2^32`. -/
def Counted (f : Futex) (w : ι → Option WaitPc) : Prop :=
  f.waitCounter = UInt32.ofNat (counted w).card

variable {f : Futex} {w : ι → Option WaitPc}

theorem mem_counted {i : ι} : i ∈ counted w ↔ (w i).any WaitPc.counts = true := by
  simp [counted]

theorem counted_congr {w' : ι → Option WaitPc}
    (h : ∀ i, (w' i).any WaitPc.counts = (w i).any WaitPc.counts) : counted w' = counted w := by
  ext i
  simp [mem_counted, h i]

theorem counted_update_of_eq [DecidableEq ι] {i : ι} {r : Option WaitPc}
    (h : r.any WaitPc.counts = (w i).any WaitPc.counts) :
    counted (Function.update w i r) = counted w := by
  refine counted_congr (fun k => ?_)
  by_cases hk : k = i
  · subst hk; simpa using h
  · simp [hk]

theorem counted_update_insert [DecidableEq ι] {i : ι} {r : Option WaitPc}
    (hr : r.any WaitPc.counts = true) :
    counted (Function.update w i r) = insert i (counted w) := by
  ext k
  by_cases hk : k = i
  · subst hk; simp [mem_counted, hr]
  · simp [mem_counted, hk]

theorem counted_update_erase [DecidableEq ι] {i : ι} {r : Option WaitPc}
    (hr : r.any WaitPc.counts = false) :
    counted (Function.update w i r) = (counted w).erase i := by
  ext k
  by_cases hk : k = i
  · subst hk; simp [mem_counted, hr]
  · simp [mem_counted, hk]

/-- One step of a waiter's `wait()` keeps the counter exact. -/
theorem Counted.wait [DecidableEq ι] (h : Counted f w) {i : ι} {pc : WaitPc} (hi : w i = some pc)
    {f' : Futex} {r : Option WaitPc} (hs : f.waitStep pc = some (f', r)) :
    Counted f' (Function.update w i r) := by
  unfold Counted at h ⊢
  cases pc <;> simp only [waitStep, Option.some.injEq, Prod.mk.injEq, reduceCtorEq] at hs <;>
    obtain ⟨rfl, rfl⟩ := hs
  · rw [counted_update_of_eq (by rw [hi]; split <;> rfl)]
    exact h
  · rw [counted_update_of_eq (by rw [hi]; split <;> rfl)]
    exact h
  · have hnot : i ∉ counted w := by simp [mem_counted, hi, WaitPc.counts]
    rw [counted_update_insert rfl, Finset.card_insert_of_notMem hnot, UInt32.ofNat_add, h]
    rfl
  · rw [counted_update_of_eq (by rw [hi]; split <;> rfl)]
    exact h
  · have hmem : i ∈ counted w := by simp [mem_counted, hi, WaitPc.counts]
    rw [counted_update_erase rfl, h, ← Finset.card_erase_add_one hmem, UInt32.ofNat_add]
    exact UInt32.add_sub_cancel _ _

theorem Counted.wake [DecidableEq ι] (h : Counted f w) {woken : Finset ι}
    (hwoken : ∀ i ∈ woken, w i = some .blocked) : Counted f (wakeUp w woken) := by
  unfold Counted at h ⊢
  have hsame : counted (wakeUp w woken) = counted w := by
    refine counted_congr (fun i => ?_)
    by_cases hi : i ∈ woken
    · simp [wakeUp, hi, hwoken i hi, WaitPc.counts]
    · simp [wakeUp, hi]
  rw [h, hsame]

/-- A zero counter means that the number of counted waiters is a multiple of
`2^32`; so, of another number of waiters, not all are blocked. -/
theorem Counted.not_all_blocked (h : Counted f w) (hcard : ¬ 2 ^ 32 ∣ Fintype.card ι)
    (h0 : f.waitCounter = 0) : ∃ i, w i ≠ some .blocked := by
  by_contra hnot
  have hall : counted w = Finset.univ := by
    ext i
    have hi : w i = some .blocked := not_not.mp fun hi => hnot ⟨i, hi⟩
    simp [mem_counted, hi, WaitPc.counts]
  have hmod : (counted w).card % 2 ^ 32 = 0 := by
    have := congrArg UInt32.toNat (h.symm.trans h0)
    simpa using this
  rw [hall, Finset.card_univ] at hmod
  exact hcard (Nat.dvd_of_mod_eq_zero hmod)

end Counted

end Futex

end Alterstack
