/-
  Alterstack.Futex.Handshake — producers and consumers on one `Futex`.

  The usage the class documents: a producer enqueues and then calls
  `notify(count)`, a consumer dequeues in a loop and calls `wait()` when it
  found nothing.  Any number of producers, `n` consumers, an atomic queue, one
  atomic access at a time.

  Main results:
    * `Handshake.no_lost_wakeup` — unless `n` is a multiple of `2^32`, no
      reachable state has work in the queue, every consumer blocked and no
      producer between its enqueue and the end of its `notify()`;
    * `Handshake.exists_stalled` — with a multiple of `2^32` consumers the 32-bit
      waiter counter reads 0 when all of them sleep, and `notify()` wakes nobody.
-/
import Alterstack.Lib.Machine
import Alterstack.Futex.Code

namespace Alterstack

namespace Handshake

open Lib Futex

/-! ## §1. The machine. -/

/-- `producer p` is `none` outside `enqueue(); notify(count)`, else the count
and the point in `notify`; `consumer c` is `none` before the dequeue, else the
point in `wait`. -/
structure State (P : Type*) (n : ℕ) where
  futex : Futex
  queue : ℕ
  producer : P → Option (ℕ × NotifyPc)
  consumer : Fin n → Option WaitPc

/-- What may happen next: a producer enqueues `value` items and enters
`notify(count)`, performs an access of `notify` or its `FUTEX_WAKE` (which
unblocks the consumers `woken`), or a consumer performs its next access. -/
inductive Label (P : Type*) (n : ℕ) where
  | enqueue (p : P) (value count : ℕ)
  | notify (p : P)
  | wake (p : P) (woken : Finset (Fin n))
  | consume (c : Fin n)

variable {P : Type*} [DecidableEq P] {n : ℕ}

/-- The consumers inside `FUTEX_WAIT`. -/
def State.blocked (s : State P n) : Finset (Fin n) :=
  Finset.univ.filter (fun c => s.consumer c = some .blocked)

/-- Where each producer stands in `notify`. -/
def State.notifiers (s : State P n) (p : P) : Option NotifyPc := (s.producer p).map Prod.snd

def step (s : State P n) : Label P n → Option (State P n)
  | .enqueue p value count =>
      if s.producer p = none ∧ 1 ≤ value ∧ 1 ≤ count then
        some { s with queue := s.queue + value
                      producer := Function.update s.producer p (some (count, .load)) }
      else none
  | .notify p =>
      match s.producer p with
      | some (_, .futexWake) | none => none
      | some (count, pc) =>
          let next := s.futex.notifyStep pc
          some { s with futex := next.1
                        producer := Function.update s.producer p (next.2.map (count, ·)) }
  | .wake p woken =>
      match s.producer p with
      | some (count, .futexWake) =>
          if woken ⊆ s.blocked ∧ woken.card = min count s.blocked.card then
            some { s with producer := Function.update s.producer p none
                          consumer := wakeUp s.consumer woken }
          else none
      | _ => none
  | .consume c =>
      match s.consumer c with
      | none =>
          if s.queue = 0 then
            some { s with consumer := Function.update s.consumer c (some .load) }
          else some { s with queue := s.queue - 1 }
      | some pc =>
          (s.futex.waitStep pc).map (fun next =>
            { s with futex := next.1, consumer := Function.update s.consumer c next.2 })

/-- Everybody outside the futex, the queue empty, the futex as constructed. -/
def initial (P : Type*) (n : ℕ) : State P n where
  futex := {}
  queue := 0
  producer := fun _ => none
  consumer := fun _ => none

def machine (P : Type*) [DecidableEq P] (n : ℕ) : Machine (State P n) (Label P n) where
  init := fun s => s = initial P n
  step := step

/-- A lost wake-up: work in the queue, every consumer inside `FUTEX_WAIT`, no
producer between its enqueue and the end of its `notify()`. -/
def Stalled (s : State P n) : Prop :=
  0 < s.queue ∧ (∀ c, s.consumer c = some .blocked) ∧ ∀ p, s.producer p = none

/-! ## §2. The invariant. -/

structure Inv (s : State P n) : Prop where
  counted : Counted s.futex s.consumer
  count_pos : ∀ p count pc, s.producer p = some (count, pc) → 1 ≤ count
  wakes : 0 < s.queue → Wakes s.futex s.consumer s.notifiers

omit [DecidableEq P] in
theorem inv_initial : Inv (initial P n) where
  counted := by simp [Counted, Futex.counted, initial]
  count_pos := by simp [initial]
  wakes := by simp [initial]

theorem notifiers_update (g : P → Option (ℕ × NotifyPc)) (p : P) (v : Option (ℕ × NotifyPc)) :
    (fun q => (Function.update g p v q).map Prod.snd)
      = Function.update (fun q => (g q).map Prod.snd) p (v.map Prod.snd) := by
  funext q
  by_cases hq : q = p
  · subst hq; simp
  · simp [hq]

/-- An access of a producer inside `notify`, the `FUTEX_WAKE` apart. -/
theorem inv_notify (hn : ¬ 2 ^ 32 ∣ n) {s : State P n} (h : Inv s) {p : P} {count : ℕ}
    {pc : NotifyPc} (hp : s.producer p = some (count, pc)) (hpc : pc ≠ .futexWake) :
    Inv { s with
      futex := (s.futex.notifyStep pc).1
      producer := Function.update s.producer p ((s.futex.notifyStep pc).2.map (count, ·)) } where
  counted := by
    have := h.counted
    unfold Counted at this ⊢
    cases pc <;> exact this
  count_pos := by
    intro q count' pc' hq
    by_cases hqp : q = p
    · subst hqp
      simp only [Function.update_self, Option.map_eq_some_iff, Prod.mk.injEq] at hq
      obtain ⟨_, _, rfl, _⟩ := hq
      exact h.count_pos q count pc hp
    · exact h.count_pos q count' pc' (by simpa [hqp] using hq)
  -- `notify` skips `FUTEX_WAKE` only while not everybody is blocked
  wakes := by
    intro hq
    have hcount := h.counted.not_all_blocked (by simpa using hn)
    have hw := (h.wakes hq).notify (j := p) (by simp [State.notifiers, hp]) hpc hcount rfl
    unfold State.notifiers at hw ⊢
    rw [notifiers_update]
    simp only [Option.map_map, Function.comp_def, Option.map_id']
    exact hw

/-- The `FUTEX_WAKE` of a producer. -/
theorem inv_wake (h1 : 1 ≤ n) {s : State P n} (h : Inv s) {p : P} {count : ℕ}
    (hp : s.producer p = some (count, .futexWake)) {woken : Finset (Fin n)}
    (hsub : woken ⊆ s.blocked) (hcard : woken.card = min count s.blocked.card) :
    Inv { s with producer := Function.update s.producer p none
                 consumer := wakeUp s.consumer woken } where
  counted := h.counted.wake (fun i hi => by simpa [State.blocked] using hsub hi)
  count_pos := by
    intro q count' pc' hq
    by_cases hqp : q = p
    · subst hqp; simp at hq
    · exact h.count_pos q count' pc' (by simpa [hqp] using hq)
  wakes := by
    intro hq
    -- somebody is unblocked, unless nobody was blocked
    have hwoken : woken.Nonempty ∨ ∃ i, s.consumer i ≠ some .blocked := by
      by_cases hb : s.blocked = ∅
      · refine .inr ⟨⟨0, h1⟩, fun hblocked => ?_⟩
        have : (⟨0, h1⟩ : Fin n) ∈ s.blocked := by simp [State.blocked, hblocked]
        simp [hb] at this
      · refine .inl (Finset.card_pos.mp ?_)
        have := h.count_pos p count _ hp
        have := Finset.card_pos.mpr (Finset.nonempty_iff_ne_empty.mpr hb)
        omega
    have hw := (h.wakes hq).wake hwoken (j := p) (by simp [State.notifiers, hp])
    unfold State.notifiers at hw ⊢
    rw [notifiers_update]
    exact hw

omit [DecidableEq P] in
/-- An access of a consumer inside `wait`. -/
theorem inv_wait {s : State P n} (h : Inv s) {c : Fin n} {pc : WaitPc}
    (hc : s.consumer c = some pc) {next : Futex × Option WaitPc}
    (hs : s.futex.waitStep pc = some next) :
    Inv { s with futex := next.1, consumer := Function.update s.consumer c next.2 } where
  counted := h.counted.wait hc hs
  count_pos := h.count_pos
  wakes := fun hq => (h.wakes hq).wait hc hs

omit [DecidableEq P] in
/-- A consumer that found the queue empty enters `wait`. -/
theorem inv_enter_wait {s : State P n} (h : Inv s) {c : Fin n} (hc : s.consumer c = none)
    (hq : s.queue = 0) : Inv { s with consumer := Function.update s.consumer c (some .load) } where
  counted := by
    have := h.counted
    unfold Counted at this ⊢
    rw [counted_update_of_eq (by simp [hc, WaitPc.counts])]
    exact this
  count_pos := h.count_pos
  wakes := fun hpos => absurd hpos (by simp [hq])

theorem inv_step (hn : ¬ 2 ^ 32 ∣ n) (s : State P n) (l : Label P n) (t : State P n)
    (h : Inv s) (hs : step s l = some t) : Inv t := by
  have h1 : 1 ≤ n := Nat.pos_of_ne_zero fun h0 => hn (h0 ▸ Nat.dvd_zero (2 ^ 32))
  cases l with
  | enqueue p value count =>
      simp only [step] at hs
      split at hs
      next hguard =>
        injection hs with hs
        subst hs
        refine ⟨h.counted, ?_, fun _ => .of_notifying (j := p) (by simp [State.notifiers])⟩
        intro q count' pc' hq
        by_cases hqp : q = p
        · subst hqp
          simp only [Function.update_self, Option.some.injEq, Prod.mk.injEq] at hq
          exact hq.1 ▸ hguard.2.2
        · exact h.count_pos q count' pc' (by simpa [hqp] using hq)
      next => cases hs
  | notify p =>
      simp only [step] at hs
      split at hs
      next => cases hs
      next => cases hs
      next count pc hne hp =>
        injection hs with hs
        subst hs
        exact inv_notify hn h hp hne
  | wake p woken =>
      simp only [step] at hs
      split at hs
      next count hp =>
        split at hs
        next hw =>
          injection hs with hs
          subst hs
          exact inv_wake h1 h hp hw.1 hw.2
        next => cases hs
      next => cases hs
  -- an empty queue sends the consumer into the wait, an item keeps it looking
  | consume c =>
      simp only [step] at hs
      split at hs
      next hc =>
        split at hs
        next hq =>
          injection hs with hs
          subst hs
          exact inv_enter_wait h hc hq
        next =>
          injection hs with hs
          subst hs
          exact ⟨h.counted, h.count_pos, fun _ => .of_looking hc⟩
      next pc hc =>
        obtain ⟨next, hnext, rfl⟩ := Option.map_eq_some_iff.mp hs
        exact inv_wait h hc hnext

theorem inv_reachable (hn : ¬ 2 ^ 32 ∣ n) {s : State P n}
    (h : (machine P n).Reachable s) : Inv s :=
  h.invariant (fun _ h0 => h0 ▸ inv_initial) (fun s l t hi _ hs => inv_step hn s l t hi hs)

/-! ## §3. No lost wake-up, and the wrap at multiples of `2^32`. -/

/-- **No lost wake-up.** -/
theorem no_lost_wakeup (hn : ¬ 2 ^ 32 ∣ n) (s : State P n)
    (h : (machine P n).Reachable s) : ¬ Stalled s := by
  rintro ⟨hq, hblocked, hidle⟩
  obtain ⟨p, hp⟩ := ((inv_reachable hn h).wakes hq).notifier_of_blocked hblocked
  exact hp (by simp [State.notifiers, hidle p])

/-- The first `k` consumers inside `FUTEX_WAIT`, the others about to dequeue,
the flag consumed. -/
def asleep (n k : ℕ) : State Unit n where
  futex := { workAvalable := 0, waitCounter := UInt32.ofNat k }
  queue := 0
  producer := fun _ => none
  consumer := fun c => if c.val < k then some .blocked else none

/-- The flag is up at construction: one consumer passes through `wait()` and takes it. -/
theorem asleep_zero (h1 : 1 ≤ n) : (machine Unit n).Reachable (asleep n 0) := by
  refine Machine.reach_of_replay [.consume ⟨0, h1⟩, .consume ⟨0, h1⟩, .consume ⟨0, h1⟩]
    (.init rfl) ?_
  simp [Machine.replay, machine, step, initial, asleep, waitStep]

theorem asleep_succ {k : ℕ} (hk : k < n) (h : (machine Unit n).Reachable (asleep n k)) :
    (machine Unit n).Reachable (asleep n (k + 1)) := by
  refine Machine.reach_of_replay (List.replicate 4 (.consume ⟨k, hk⟩)) h ?_
  have hlast : Function.update (asleep n k).consumer ⟨k, hk⟩ (some .blocked)
      = (asleep n (k + 1)).consumer := by
    funext c
    by_cases hc : c = ⟨k, hk⟩
    · subst hc; simp [asleep]
    · have : c.val ≠ k := fun h => hc (Fin.ext h)
      simp only [asleep, Function.update_of_ne hc]
      congr 1
      exact propext ⟨by omega, by omega⟩
  simp only [asleep] at hlast
  simp [List.replicate, Machine.replay, machine, step, asleep, waitStep, hlast, UInt32.ofNat_add]

theorem asleep_all (h1 : 1 ≤ n) : ∀ k ≤ n, (machine Unit n).Reachable (asleep n k)
  | 0, _ => asleep_zero h1
  | k + 1, hk => asleep_succ hk (asleep_all h1 k (by omega))

/-- One sleeping consumer and a producer that has just enqueued: not stalled. -/
theorem no_lost_wakeup_asleep :
    ¬ Stalled { asleep 1 1 with
      queue := 1, producer := Function.update (fun _ : Unit => none) () (some (1, .load)) } :=
  no_lost_wakeup (n := 1) (by decide) _
    (Machine.reach_of_replay [.enqueue () 1 1] (asleep_all le_rfl 1 le_rfl)
      (by simp [Machine.replay, machine, step, asleep]))

/-- **The wrap.**  A multiple of `2^32` sleeping consumers bring the counter back
to 0, so the producer of the next item stores the flag and skips `FUTEX_WAKE`. -/
theorem exists_stalled (h1 : 1 ≤ n) (hn : 2 ^ 32 ∣ n) :
    ∃ s : State Unit n, (machine Unit n).Reachable s ∧ Stalled s := by
  have hwrap : UInt32.ofNat n = 0 := by
    apply UInt32.toNat_inj.mp
    rw [UInt32.toNat_ofNat']
    exact Nat.mod_eq_zero_of_dvd hn
  refine ⟨{ asleep n n with futex := { workAvalable := 1 }, queue := 1 }, ?_, ?_⟩
  · refine Machine.reach_of_replay [.enqueue () 1 1, .notify (), .notify (), .notify ()]
      (asleep_all h1 n le_rfl) ?_
    simp [Machine.replay, machine, step, asleep, notifyStep, hwrap]
  · exact ⟨Nat.one_pos, fun c => by simp [asleep], fun _ => rfl⟩

theorem stalled_of_counter_wrap :
    ∃ s : State Unit (2 ^ 32), (machine Unit (2 ^ 32)).Reachable s ∧ Stalled s :=
  exists_stalled (by decide) (Nat.dvd_refl _)

end Handshake

end Alterstack
