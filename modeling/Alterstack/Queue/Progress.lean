/-
  Alterstack.Queue.Progress — `LockFreeQueue` never waits for a stalled thread.

  A thread that runs alone, without spurious failures, finds the positions and
  slots as it left them: a scan restarts at most once, a compare-exchange fails
  at most once, and the one list it walks is its own.  `Pc.Within k` is an
  upper bound on the steps that are left, which every such step lowers; `w`
  bounds the length of the lists in the slots.

  Main results:
    * `BoundBuffer.step_within`, `LockFreeQueue.step_within` — a step alone
      lowers the bound or returns;
    * `Progress.completes_alone` — from every reachable state, every call in
      progress completes alone within 55 steps and one for each queued item,
      and `find_last_item_in_list` walks a finite acyclic list.
-/
import Mathlib.Data.Finset.Card
import Alterstack.Queue.Conservation

namespace Alterstack

namespace Queue

open Lib (Seg)

variable {I : Type*} [DecidableEq I] {next : I → Option I} {l : List I} {w k : ℕ}

/-! ## §1. `BoundBuffer`. -/

namespace BoundBuffer

/-- The round of `store_tail` is one that calls `store_in_empty_slot`. -/
def Caller.Proper : Caller I → Prop
  | .storeTail _ i _ => i < 3
  | .putItemsList => True

/-- The counters of the loops are in range. -/
def Pc.Proper : Pc I → Prop
  | .getExchange _ i | .getReload _ i => i < 4
  | .emptyLoad caller _ | .emptyAdd caller _ => caller.Proper
  | .emptyCas caller _ _ i | .emptyReload caller _ _ i => i < 4 ∧ caller.Proper
  | _ => True

theorem storeTail_proper (b : BoundBuffer I) (next : I → Option I) (item : I) (i : UInt32)
    (itemsList : Option I) {pc : Pc I}
    (h : (storeTail b next item i itemsList).2.2 = .goto pc) : pc.Proper := by
  unfold storeTail at h
  split at h
  next hi =>
    cases itemsList with
    | none => cases h
    | some node =>
        cases h
        exact hi
  next =>
    cases h
    trivial

theorem emptyFailed_proper (b : BoundBuffer I) (next : I → Option I) (node : I)
    (caller : Caller I) {pc : Pc I} (h : (emptyFailed b next node caller).2.2 = .goto pc) :
    pc.Proper := by
  cases caller <;> cases h <;> trivial

theorem occupiedStored_returns (b : BoundBuffer I) (next : I → Option I) (ret : Option I)
    (pc : Pc I) : (occupiedStored b next ret).2.2 ≠ .goto pc := by
  cases ret <;> intro h <;> cases h

/-- Every step keeps the counters in range. -/
theorem step_proper (spurious : Bool) (b : BoundBuffer I) (next : I → Option I) {pc pc' : Pc I}
    (h : pc.Proper) (hs : (step spurious b next pc).2.2 = .goto pc') : pc'.Proper := by
  cases pc with
  | getLoad =>
      cases hs
      exact (by decide : (0 : UInt32) < 4)
  | getExchange index i =>
      simp only [step] at hs
      split at hs <;> cases hs
      · trivial
      · exact h
  | getReload index i =>
      simp only [step] at hs
      split_ifs at hs with hmoved hi <;> cases hs
      · exact (by decide : (0 : UInt32) < 4)
      · exact hi
  | getAdd i item =>
      simp only [step] at hs
      split at hs
      next => cases hs
      next => exact storeTail_proper _ _ _ _ _ hs
  | emptyLoad caller node =>
      cases hs
      exact ⟨by decide, h⟩
  | emptyCas caller node index i =>
      simp only [step] at hs
      split at hs <;> cases hs
      · exact h.2
      · exact h
  | emptyReload caller node index i =>
      simp only [step] at hs
      split_ifs at hs with hmoved hi
      · cases hs
        exact ⟨by decide, h.2⟩
      · cases hs
        exact ⟨hi, h.2⟩
      · exact emptyFailed_proper _ _ _ _ hs
  | emptyAdd caller i =>
      cases caller with
      | putItemsList => cases hs
      | storeTail item j itemsList => exact storeTail_proper _ _ _ _ _ hs
  | occupiedAdd ret itemsList =>
      cases hs
      trivial
  | occupiedExchange ret itemsList index =>
      simp only [step] at hs
      split at hs
      next => exact absurd hs (occupiedStored_returns _ _ _ _)
      next =>
        cases hs
        trivial
  | occupiedFind ret itemsList index oldList lastItem =>
      simp only [step] at hs
      split at hs <;> cases hs <;> trivial
  | occupiedCas ret itemsList index oldList lastItem =>
      simp only [step] at hs
      split at hs
      next => exact absurd hs (occupiedStored_returns _ _ _ _)
      next =>
        cases hs
        trivial
  | prioLoad item =>
      cases hs
      trivial
  | prioRead item index =>
      cases hs
      trivial
  | prioCas item index nextItem =>
      simp only [step] at hs
      split at hs <;> cases hs
      trivial

/-- The control points of `get_item`, which returns an item once it has one. -/
def Pc.Getting : Pc I → Prop
  | .getLoad | .getExchange _ _ | .getReload _ _ | .getAdd _ _ => True
  | .emptyLoad caller _ | .emptyCas caller _ _ _ | .emptyReload caller _ _ _
  | .emptyAdd caller _ => caller ≠ .putItemsList
  | .occupiedAdd ret _ | .occupiedExchange ret _ _ | .occupiedFind ret _ _ _ _
  | .occupiedCas ret _ _ _ _ => ret ≠ none
  | .prioLoad _ | .prioRead _ _ | .prioCas _ _ _ => False

/-- A scan that has loaded a position which moved since starts again. -/
def restart (index position : UInt32) : ℕ := if index = position then 0 else 8

/-- What can follow a `store_in_empty_slot`. -/
def Caller.rest (w : ℕ) : Caller I → ℕ
  | .putItemsList => w + 5
  | .storeTail _ i _ => 11 * (2 - i.toNat) + (w + 5)

/-- At most `k` steps are left to a thread that runs alone. -/
def Pc.Within (b : BoundBuffer I) (next : I → Option I) (w k : ℕ) : Pc I → Prop
  | .getLoad => w + 48 ≤ k
  | .getExchange index i =>
      i < 4 ∧ 2 * (4 - i.toNat) + restart index b.getPosition + (w + 39) ≤ k
  | .getReload index i =>
      i < 4 ∧ 2 * (4 - i.toNat) + restart index b.getPosition + (w + 39) ≤ k + 1
  | .getAdd _ _ => w + 39 ≤ k
  | .emptyLoad caller _ => caller.Proper ∧ caller.rest w + 10 ≤ k
  | .emptyCas caller _ index i => caller.Proper ∧ i < 4 ∧
      2 * (4 - i.toNat) + restart index b.putPosition + (caller.rest w + 1) ≤ k
  | .emptyReload caller _ index i => caller.Proper ∧ i < 4 ∧
      2 * (4 - i.toNat) + restart index b.putPosition + (caller.rest w + 1) ≤ k + 1
  | .emptyAdd caller _ => caller.Proper ∧ caller.rest w + 1 ≤ k
  | .occupiedAdd _ _ => w + 5 ≤ k
  | .occupiedExchange _ _ _ => w + 4 ≤ k
  | .occupiedFind _ _ _ _ lastItem => ∃ l, Seg next (some lastItem) l none ∧ l.length + 2 ≤ k
  | .occupiedCas _ itemsList index _ _ => (if b.buffer (slot index) = itemsList then 1 else 2) ≤ k
  | .prioLoad _ => 3 ≤ k
  | .prioRead _ _ => 2 ≤ k
  | .prioCas _ index nextItem => (if b.buffer (slot index) = nextItem then 1 else 2) ≤ k

/-- What is left after a step of `pc`; the null of an empty buffer leaves
enough for the stacks. -/
def Result.Within (r : Result I) (w k : ℕ) (pc : Pc I) : Prop :=
  match r.2.2 with
  | .goto pc' => pc'.Within r.1 r.2.1 w k
  | .ret item _ => pc.Getting → item = none → w + 39 ≤ k

theorem toNat_succ {i : UInt32} (hi : i < 4) : (i + 1).toNat = i.toNat + 1 := by
  have : i.toNat < 4 := hi
  rw [UInt32.toNat_add]
  simp
  omega

theorem lt_of_proper {i : UInt32} (hi : i < 3) : i < 4 :=
  UInt32.lt_trans hi (by decide)

theorem restart_self (p : UInt32) : restart p p = 0 := if_pos rfl

variable {b : BoundBuffer I} {pc : Pc I}

/-- The rounds of `store_tail` from `i` on. -/
theorem storeTail_within {item : I} {i : UInt32} {itemsList : Option I} (hi : i.toNat ≤ 3)
    (hk : 11 * (3 - i.toNat) + (w + 5) ≤ k + 1) (hlast : i.toNat = 3 → w + 5 ≤ k) :
    Result.Within (storeTail b next item i itemsList) w k pc := by
  unfold storeTail
  split
  next hlt =>
    have : i.toNat < 3 := hlt
    cases itemsList with
    | none => exact fun _ h => by cases h
    | some node =>
        refine ⟨hlt, ?_⟩
        show 11 * (2 - i.toNat) + (w + 5) + 10 ≤ k
        omega
  next hge =>
    refine hlast ?_
    have : ¬ i.toNat < 3 := hge
    omega

/-- `store_in_empty_slot` has returned false. -/
theorem emptyFailed_within {node : I} {caller : Caller I} (hk : caller.rest w ≤ k) :
    Result.Within (emptyFailed b next node caller) w k pc := by
  cases caller with
  | putItemsList => exact hk
  | storeTail item i itemsList =>
      have : 11 * (2 - i.toNat) + (w + 5) ≤ k := hk
      show w + 5 ≤ k
      omega

/-- `store_in_occupied_slot` has returned. -/
theorem occupiedStored_within {ret : Option I} (hret : pc.Getting → ret ≠ none) :
    Result.Within (occupiedStored b next ret) w k pc := by
  cases ret with
  | none => exact fun hpc => absurd rfl (hret hpc)
  | some item => exact fun _ h => by cases h

/-- **A step alone lowers the bound.** -/
theorem step_within (hslots : ∀ i, ∃ l, Seg next (b.buffer i) l none ∧ l.length ≤ w)
    (h : pc.Within b next w (k + 1)) : Result.Within (step false b next pc) w k pc := by
  cases pc with
  | getLoad =>
      refine ⟨by decide, ?_⟩
      have : w + 48 ≤ k + 1 := h
      show 2 * (4 - 0) + restart b.getPosition b.getPosition + (w + 39) ≤ k
      rw [restart_self]
      omega
  | getExchange index i =>
      obtain ⟨hi, hk⟩ := h
      have : i.toNat < 4 := hi
      simp only [step]
      cases hslot : b.buffer (slot (index + i)) with
      | none =>
          refine ⟨hi, ?_⟩
          exact hk
      | some item =>
          show w + 39 ≤ k
          omega
  | getReload index i =>
      obtain ⟨hi, hk⟩ := h
      have : i.toNat < 4 := hi
      simp only [step]
      by_cases hmoved : index ≠ b.getPosition
      · -- the position moved while the thread was stalled
        rw [if_pos hmoved]
        refine ⟨by decide, ?_⟩
        rw [restart, if_neg hmoved] at hk
        show 2 * (4 - 0) + restart b.getPosition b.getPosition + (w + 39) ≤ k
        rw [restart_self]
        omega
      · rw [if_neg hmoved]
        by_cases hnext : i + 1 < 4
        · rw [if_pos hnext]
          refine ⟨hnext, ?_⟩
          show 2 * (4 - (i + 1).toNat) + restart index b.getPosition + (w + 39) ≤ k
          rw [toNat_succ hi]
          omega
        · rw [if_neg hnext]
          show _ → _ → w + 39 ≤ k
          omega
  | getAdd i item =>
      have hk : w + 39 ≤ k + 1 := h
      simp only [step]
      cases next item with
      | none => exact fun _ h => by cases h
      | some tail =>
          have hzero : (0 : UInt32).toNat ≠ 3 := by decide
          exact storeTail_within (by decide) (by show 11 * (3 - 0) + _ ≤ _; omega)
            (fun h => absurd h hzero)
  | emptyLoad caller node =>
      obtain ⟨hcaller, hk⟩ := h
      refine ⟨hcaller, by decide, ?_⟩
      show 2 * (4 - 0) + restart b.putPosition b.putPosition + (caller.rest w + 1) ≤ k
      rw [restart_self]
      omega
  | emptyCas caller node index i =>
      obtain ⟨hcaller, hi, hk⟩ := h
      have : i.toNat < 4 := hi
      simp only [step]
      split
      next =>
        refine ⟨hcaller, ?_⟩
        omega
      next => exact ⟨hcaller, hi, hk⟩
  | emptyReload caller node index i =>
      obtain ⟨hcaller, hi, hk⟩ := h
      have : i.toNat < 4 := hi
      simp only [step]
      by_cases hmoved : index ≠ b.putPosition
      · rw [if_pos hmoved]
        refine ⟨hcaller, by decide, ?_⟩
        rw [restart, if_neg hmoved] at hk
        show 2 * (4 - 0) + restart b.putPosition b.putPosition + (caller.rest w + 1) ≤ k
        rw [restart_self]
        omega
      · rw [if_neg hmoved]
        by_cases hnext : i + 1 < 4
        · rw [if_pos hnext]
          refine ⟨hcaller, hnext, ?_⟩
          show 2 * (4 - (i + 1).toNat) + restart index b.putPosition + (caller.rest w + 1) ≤ k
          rw [toNat_succ hi]
          omega
        · rw [if_neg hnext]
          exact emptyFailed_within (by omega)
  | emptyAdd caller i =>
      obtain ⟨hcaller, hk⟩ := h
      cases caller with
      | putItemsList => exact fun hpc => absurd rfl hpc
      | storeTail item j itemsList =>
          have hj : j.toNat < 3 := hcaller
          have hk : 11 * (2 - j.toNat) + (w + 5) + 1 ≤ k + 1 := hk
          have hsucc := toNat_succ (lt_of_proper hcaller)
          exact storeTail_within (by omega) (by omega) (by omega)
  | occupiedAdd ret itemsList =>
      have hk : w + 5 ≤ k + 1 := h
      show w + 4 ≤ k
      omega
  | occupiedExchange ret itemsList index =>
      have hk : w + 4 ≤ k + 1 := h
      obtain ⟨l, hseg, hlen⟩ := hslots (slot index)
      simp only [step]
      cases hslot : b.buffer (slot index) with
      | none => exact occupiedStored_within fun hpc => hpc
      | some oldList =>
          rw [hslot] at hseg
          exact ⟨l, hseg, by omega⟩
  | occupiedFind ret itemsList index oldList lastItem =>
      obtain ⟨l, hseg, hlen⟩ := h
      obtain ⟨rest, rfl, hrest⟩ := hseg.eq_cons
      rw [List.length_cons] at hlen
      simp only [step]
      cases hnext : next lastItem with
      | some item =>
          rw [hnext] at hrest
          exact ⟨rest, hrest, by omega⟩
      | none =>
          show (if b.buffer (slot index) = itemsList then 1 else 2) ≤ k
          split <;> omega
  | occupiedCas ret itemsList index oldList lastItem =>
      have hk : (if b.buffer (slot index) = itemsList then 1 else 2) ≤ k + 1 := h
      simp only [step]
      by_cases hcas : b.buffer (slot index) = itemsList
      · rw [if_pos ⟨hcas, trivial⟩]
        exact occupiedStored_within fun hpc => hpc
      · -- the second try expects what is there
        rw [if_neg (fun hboth => hcas hboth.1)]
        rw [if_neg hcas] at hk
        show (if b.buffer (slot index) = b.buffer (slot index) then 1 else 2) ≤ k
        rw [if_pos rfl]
        omega
  | prioLoad item =>
      have hk : 3 ≤ k + 1 := h
      show 2 ≤ k
      omega
  | prioRead item index =>
      have hk : 2 ≤ k + 1 := h
      show (if b.buffer (slot index) = b.buffer (slot index) then 1 else 2) ≤ k
      rw [if_pos rfl]
      omega
  | prioCas item index nextItem =>
      have hk : (if b.buffer (slot index) = nextItem then 1 else 2) ≤ k + 1 := h
      simp only [step]
      by_cases hcas : b.buffer (slot index) = nextItem
      · rw [if_pos ⟨hcas, trivial⟩]
        exact fun hpc => hpc.elim
      · rw [if_neg (fun hboth => hcas hboth.1)]
        rw [if_neg hcas] at hk
        show (if b.buffer (slot index) = b.buffer (slot index) then 1 else 2) ≤ k
        rw [if_pos rfl]
        omega

/-- `get_item` stays in its own control points. -/
theorem step_getting (spurious : Bool) (h : pc.Getting) {pc' : Pc I}
    (hs : (step spurious b next pc).2.2 = .goto pc') : pc'.Getting := by
  have htail : ∀ (b : BoundBuffer I) item i itemsList,
      (storeTail b next item i itemsList).2.2 = .goto pc' → pc'.Getting := by
    intro b item i itemsList hs
    unfold storeTail at hs
    split at hs
    next =>
      cases itemsList with
      | none => cases hs
      | some node =>
          cases hs
          exact fun hc => by cases hc
    next =>
      cases hs
      exact fun hc => by cases hc
  -- `get_item` inserts through `store_tail`, never as `put_items_list`
  cases pc with
  | getLoad =>
      cases hs
      trivial
  | getExchange index i =>
      simp only [step] at hs
      split at hs <;> cases hs <;> trivial
  | getReload index i =>
      simp only [step] at hs
      split_ifs at hs <;> cases hs <;> trivial
  | getAdd i item =>
      simp only [step] at hs
      split at hs
      next => cases hs
      next => exact htail _ _ _ _ hs
  | emptyLoad caller node =>
      cases hs
      exact h
  | emptyCas caller node index i =>
      simp only [step] at hs
      split at hs <;> cases hs <;> exact h
  | emptyReload caller node index i =>
      simp only [step] at hs
      split_ifs at hs
      · cases hs
        exact h
      · cases hs
        exact h
      · cases caller with
        | putItemsList => exact absurd rfl h
        | storeTail item j itemsList =>
            cases hs
            exact fun hc => by cases hc
  | emptyAdd caller i =>
      cases caller with
      | putItemsList => exact absurd rfl h
      | storeTail item j itemsList => exact htail _ _ _ _ hs
  | occupiedAdd ret itemsList =>
      cases hs
      exact h
  | occupiedExchange ret itemsList index =>
      simp only [step] at hs
      split at hs
      next => exact absurd hs (occupiedStored_returns _ _ _ _)
      next =>
        cases hs
        exact h
  | occupiedFind ret itemsList index oldList lastItem =>
      simp only [step] at hs
      split at hs <;> cases hs <;> exact h
  | occupiedCas ret itemsList index oldList lastItem =>
      simp only [step] at hs
      split at hs
      next => exact absurd hs (occupiedStored_returns _ _ _ _)
      next =>
        cases hs
        exact h
  | prioLoad => exact h.elim
  | prioRead => exact h.elim
  | prioCas => exact h.elim

/-- A stalled thread owns the list it walks, so it has at most the steps of a
whole call left. -/
theorem Pc.Proper.within (h : pc.Proper) (ho : pc.Owns next l)
    (hw : l.length ≤ w) (b : BoundBuffer I) : pc.Within b next w (w + 55) := by
  have hrestart : ∀ p q : UInt32, restart p q ≤ 8 := by
    intro p q
    unfold restart
    split <;> omega
  have hrest : ∀ caller : Caller I, caller.rest w ≤ w + 27 := by
    intro caller
    cases caller <;> simp only [Caller.rest] <;> omega
  cases pc with
  | getLoad =>
      show w + 48 ≤ w + 55
      omega
  | getExchange index i => exact ⟨h, by have := hrestart index b.getPosition; omega⟩
  | getReload index i => exact ⟨h, by have := hrestart index b.getPosition; omega⟩
  | getAdd i item =>
      show w + 39 ≤ w + 55
      omega
  | emptyLoad caller node => exact ⟨h, by have := hrest caller; omega⟩
  | emptyCas caller node index i =>
      exact ⟨h.2, h.1, by have := hrest caller; have := hrestart index b.putPosition; omega⟩
  | emptyReload caller node index i =>
      exact ⟨h.2, h.1, by have := hrest caller; have := hrestart index b.putPosition; omega⟩
  | emptyAdd caller i => exact ⟨h, by have := hrest caller; omega⟩
  | occupiedAdd ret itemsList =>
      show w + 5 ≤ w + 55
      omega
  | occupiedExchange ret itemsList index =>
      show w + 4 ≤ w + 55
      omega
  -- the walk is over the rest of a list it owns
  | occupiedFind ret itemsList index oldList lastItem =>
      obtain ⟨l₁, l₂, rfl, -, hs⟩ := ho
      simp only [List.length_append] at hw
      exact ⟨l₂, hs, by omega⟩
  | occupiedCas ret itemsList index oldList lastItem =>
      show (if _ then 1 else 2) ≤ w + 55
      split <;> omega
  | prioLoad item =>
      show 3 ≤ w + 55
      omega
  | prioRead item index =>
      show 2 ≤ w + 55
      omega
  | prioCas item index nextItem =>
      show (if _ then 1 else 2) ≤ w + 55
      split <;> omega

/-- There is always a step left. -/
theorem Pc.Within.pos (h : pc.Within b next w k) : 0 < k := by
  cases pc with
  | getLoad =>
      have : w + 48 ≤ k := h
      omega
  | getExchange index i =>
      have := h.2
      omega
  | getReload index i =>
      have : i.toNat < 4 := h.1
      have := h.2
      omega
  | getAdd i item =>
      have : w + 39 ≤ k := h
      omega
  | emptyLoad caller node =>
      have := h.2
      omega
  | emptyCas caller node index i =>
      have := h.2.2
      omega
  | emptyReload caller node index i =>
      have : i.toNat < 4 := h.2.1
      have := h.2.2
      omega
  | emptyAdd caller i =>
      have := h.2
      omega
  | occupiedAdd ret itemsList =>
      have : w + 5 ≤ k := h
      omega
  | occupiedExchange ret itemsList index =>
      have : w + 4 ≤ k := h
      omega
  | occupiedFind ret itemsList index oldList lastItem =>
      obtain ⟨l, -, hlen⟩ := h
      omega
  | occupiedCas ret itemsList index oldList lastItem =>
      have h : (if b.buffer (slot index) = itemsList then 1 else 2) ≤ k := h
      split at h <;> omega
  | prioLoad item =>
      have : 3 ≤ k := h
      omega
  | prioRead item index =>
      have : 2 ≤ k := h
      omega
  | prioCas item index nextItem =>
      have h : (if b.buffer (slot index) = nextItem then 1 else 2) ≤ k := h
      split at h <;> omega

end BoundBuffer

/-! ## §2. `LockFreeQueue`. -/

namespace LockFreeQueue

def Pc.Proper : Pc I → Prop
  | .getBuffer pc => pc.Proper ∧ pc.Getting
  | .putRest _ pc | .putPrio pc => pc.Proper
  | .pop _ | .push _ _ _ => True

omit [DecidableEq I] in
theorem putItem_proper (item : I) (prio : UInt32) : (putItem item prio).Proper := by
  unfold putItem
  split <;> trivial

theorem step_proper (spurious : Bool) (q : LockFreeQueue I) (next : I → Option I) {pc pc' : Pc I}
    (h : pc.Proper) (hs : (step spurious q next pc).2.2 = .goto pc') : pc'.Proper := by
  cases pc with
  | getBuffer pc =>
      simp only [step] at hs
      split at hs <;> cases hs
      next hr => exact ⟨BoundBuffer.step_proper _ _ _ h.1 hr, BoundBuffer.step_getting _ h.2 hr⟩
      next => trivial
  | pop i =>
      simp only [step, LockFreeStack.popList] at hs
      cases hi : q.prioQueue i with
      | none =>
          simp only [hi, nextPop] at hs
          split at hs <;> cases hs
          trivial
      | some item =>
          simp only [hi] at hs
          cases hn : next item with
          | none =>
              rw [hn] at hs
              cases hs
          | some itemsList =>
              rw [hn] at hs
              cases hs
              trivial
  | putRest item pc =>
      simp only [step] at hs
      split at hs <;> cases hs
      next hr => exact BoundBuffer.step_proper _ _ _ h hr
  | putPrio pc =>
      simp only [step] at hs
      split at hs <;> cases hs
      next hr => exact BoundBuffer.step_proper _ _ _ h hr
  | push i item pc =>
      simp only [step] at hs
      split at hs <;> cases hs
      trivial

/-- At most `k` steps are left to a thread that runs alone. -/
def Pc.Within (q : LockFreeQueue I) (next : I → Option I) (w k : ℕ) : Pc I → Prop
  | .getBuffer pc => pc.Within q.itemBuffer next w k ∧ pc.Getting
  | .pop i => 3 - i.val + (w + 15) ≤ k
  | .putRest _ pc | .putPrio pc => pc.Within q.itemBuffer next w k
  | .push _ _ .load => 2 ≤ k
  | .push i _ (.cas head) => (if q.prioQueue i = head then 1 else 2) ≤ k

variable {q : LockFreeQueue I} {pc pc' : Pc I}

theorem Pc.Within.pos (h : pc.Within q next w k) : 0 < k := by
  cases pc with
  | getBuffer pc => exact BoundBuffer.Pc.Within.pos h.1
  | pop i =>
      have : 3 - i.val + (w + 15) ≤ k := h
      omega
  | putRest item pc => exact BoundBuffer.Pc.Within.pos h
  | putPrio pc => exact BoundBuffer.Pc.Within.pos h
  | push i item pc =>
      cases pc with
      | load =>
          have : 2 ≤ k := h
          omega
      | cas head =>
          have h : (if q.prioQueue i = head then 1 else 2) ≤ k := h
          split at h <;> omega

/-- The buffer part of a step. -/
theorem buffer_within {b : BoundBuffer I} {pc pc' : BoundBuffer.Pc I}
    (hslots : ∀ i, ∃ l, Seg next (b.buffer i) l none ∧ l.length ≤ w)
    (h : pc.Within b next w (k + 1)) (hs : (b.step false next pc).2.2 = .goto pc') :
    pc'.Within (b.step false next pc).1 (b.step false next pc).2.1 w k := by
  have hw := BoundBuffer.step_within hslots h
  unfold BoundBuffer.Result.Within at hw
  rwa [hs] at hw

/-- **A step alone lowers the bound or returns.** -/
theorem step_within (hlists : ∀ c, ∃ l, Seg next (q.head c) l none ∧ l.length ≤ w)
    (h : pc.Within q next w (k + 1)) (hs : (step false q next pc).2.2 = .goto pc') :
    pc'.Within (step false q next pc).1 (step false q next pc).2.1 w k := by
  have hslots := fun i => hlists (.slot i)
  cases pc with
  -- an empty buffer sends the call to the three stacks
  | getBuffer pc =>
      simp only [step] at hs ⊢
      split at hs <;> cases hs
      next hr => exact ⟨buffer_within hslots h.1 hr, BoundBuffer.step_getting _ h.2 hr⟩
      next more hr =>
        have hw := BoundBuffer.step_within hslots h.1
        unfold BoundBuffer.Result.Within at hw
        rw [hr] at hw
        have := hw h.2 rfl
        show 3 - 0 + (w + 15) ≤ k
        omega
  | pop i =>
      have hk : 3 - i.val + (w + 15) ≤ k + 1 := h
      have hi : i.val < 3 := i.isLt
      simp only [step, LockFreeStack.popList] at hs ⊢
      -- an empty stack costs one step, the list of another is stored back
      cases hhead : q.prioQueue i with
      | none =>
          simp only [hhead, nextPop] at hs ⊢
          split at hs <;> cases hs
          show 3 - (i.val + 1) + (w + 15) ≤ k
          omega
      | some item =>
          simp only [hhead] at hs ⊢
          cases hn : next item with
          | none =>
              rw [hn] at hs
              cases hs
          | some itemsList =>
              rw [hn] at hs
              cases hs
              refine ⟨trivial, ?_⟩
              show w + 5 + 10 ≤ k
              omega
  | putRest item pc =>
      simp only [step] at hs ⊢
      split at hs <;> cases hs
      next hr => exact buffer_within hslots h hr
  | putPrio pc =>
      simp only [step] at hs ⊢
      split at hs <;> cases hs
      next hr => exact buffer_within hslots h hr
  | push i item pc =>
      have hself : ∀ v : Option I,
          (if Function.update q.prioQueue i v i = v then 1 else 2) = 1 := by simp
      cases pc with
      | load =>
          have hk : 2 ≤ k + 1 := h
          cases hs
          show (if Function.update q.prioQueue i (q.prioQueue i) i = q.prioQueue i
            then 1 else 2) ≤ k
          rw [hself]
          omega
      -- alone, the exchange fails at most once
      | cas head =>
          have hk : (if q.prioQueue i = head then 1 else 2) ≤ k + 1 := h
          by_cases hcas : q.prioQueue i = head
          · simp [step, LockFreeStack.push, hcas] at hs
          · rw [if_neg hcas] at hk
            simp only [step, LockFreeStack.push, hcas, false_and, if_false] at hs ⊢
            cases hs
            show (if Function.update q.prioQueue i (q.prioQueue i) i = q.prioQueue i
              then 1 else 2) ≤ k
            rw [hself]
            omega

theorem Pc.Proper.within (h : pc.Proper) (ho : pc.Owns next l)
    (hw : l.length ≤ w) (q : LockFreeQueue I) : pc.Within q next w (w + 55) := by
  cases pc with
  | getBuffer pc => exact ⟨h.1.within ho hw _, h.2⟩
  | pop i =>
      show 3 - i.val + (w + 15) ≤ w + 55
      omega
  | putRest item pc =>
      obtain ⟨-, -, rest, rfl, ho⟩ := ho
      rw [List.length_cons] at hw
      exact BoundBuffer.Pc.Proper.within h ho (by omega) _
  | putPrio pc => exact BoundBuffer.Pc.Proper.within h ho.2 hw _
  | push i item pc =>
      cases pc with
      | load =>
          show 2 ≤ w + 55
          omega
      | cas head =>
          show (if q.prioQueue i = head then 1 else 2) ≤ w + 55
          split <;> omega

/-- Where `find_last_item_in_list` stands in its walk. -/
def Pc.walksFrom : Pc I → Option I
  | .getBuffer (.occupiedFind _ _ _ _ lastItem) | .putRest _ (.occupiedFind _ _ _ _ lastItem)
  | .putPrio (.occupiedFind _ _ _ _ lastItem) => some lastItem
  | _ => none

omit [DecidableEq I] in
theorem Pc.Owns.walks (h : pc.Owns next l) (hl : l.Nodup) {x : I} (hx : pc.walksFrom = some x) :
    ∃ l', l'.Nodup ∧ Seg next (some x) l' none := by
  have hfind : ∀ ret itemsList index oldList lastItem (m : List I), m.Nodup →
      (BoundBuffer.Pc.occupiedFind ret itemsList index oldList lastItem).Owns next m →
      ∃ l', l'.Nodup ∧ Seg next (some lastItem) l' none := by
    rintro ret itemsList index oldList lastItem m hm ⟨l₁, l₂, rfl, -, hs⟩
    rw [List.nodup_append, List.nodup_append] at hm
    exact ⟨l₂, hm.2.1.2.1, hs⟩
  -- only these three points are inside `find_last_item_in_list`
  cases pc with
  | getBuffer pc =>
      cases pc with
      | occupiedFind ret itemsList index oldList lastItem =>
          cases hx
          exact hfind ret itemsList index oldList _ l hl h
      | _ => cases hx
  | pop i => cases hx
  | putRest item pc =>
      obtain ⟨-, -, rest, rfl, ho⟩ := h
      cases pc with
      | occupiedFind ret itemsList index oldList lastItem =>
          cases hx
          exact hfind ret itemsList index oldList _ rest (List.nodup_cons.mp hl).2 ho
      | _ => cases hx
  | putPrio pc =>
      cases pc with
      | occupiedFind ret itemsList index oldList lastItem =>
          cases hx
          exact hfind ret itemsList index oldList _ l hl h.2
      | _ => cases hx
  | push i item pc => cases hx

end LockFreeQueue

end Queue

/-! ## §3. Any thread alone. -/

namespace Progress

open Lib Queue LockFreeQueue Conservation

variable {τ I : Type*} [DecidableEq τ] [DecidableEq I]

/-- The items in the queue or held by calls in progress. -/
def queuedItems : List (Event τ I) → Finset I
  | [] => ∅
  | .put _ x _ :: log => insert x (queuedItems log)
  | .got _ (some x) _ :: log => (queuedItems log).erase x
  | .got _ none _ :: log | .stored _ :: log | .wrote _ _ :: log => queuedItems log

omit [DecidableEq τ] in
theorem mem_queuedItems {log : List (Event τ I)} {x : I} :
    x ∈ queuedItems log ↔ holder log x = .queued := by
  induction log with
  | nil => simp [queuedItems, holder]
  | cons e log ih =>
      cases e with
      | put t y prio =>
          by_cases hxy : x = y <;> simp [queuedItems, holder, hxy, ih]
      | got t item more =>
          cases item with
          | none => simpa [queuedItems, holder] using ih
          | some y =>
              by_cases hxy : x = y
              · simp [queuedItems, holder, hxy]
              · simp [queuedItems, holder, hxy, Ne.symm hxy, ih]
      | stored t => exact ih
      | wrote y v => exact ih

variable {s s' : State τ I} {L : Layout (Place τ) I} {t : τ} {pc : Pc I} {k : ℕ}

omit [DecidableEq τ] in
/-- Nobody holds more nodes than there are queued items. -/
theorem length_le (h : Inv s L) (p : Place τ) : (L.at_ p).length ≤ (queuedItems s.log).card := by
  rw [← List.toFinset_card_of_nodup (L.nodup p)]
  refine Finset.card_le_card (fun x hx => ?_)
  rw [mem_queuedItems, ← h.queued x]
  exact ⟨p, List.mem_toFinset.mp hx⟩

/-- Every call in progress has its loop counters in range. -/
def Proper (s : State τ I) : Prop := ∀ t pc, s.thread t = some pc → pc.Proper

theorem proper_step (h : Proper s) {l : Label τ I} (hstep : Conservation.step s l = some s') :
    Proper s' := by
  have henter : ∀ t pc', pc'.Proper → ∀ u pc,
      Function.update s.thread t (some pc') u = some pc → pc.Proper := by
    intro t pc' hpc' u pc hu
    by_cases hut : u = t
    · subst hut
      simp only [Function.update_self, Option.some.injEq] at hu
      exact hu ▸ hpc'
    · exact h u pc (by simpa [hut] using hu)
  cases l with
  | putItem t x prio =>
      obtain ⟨-, -, -, rfl⟩ := Conservation.step_putItem hstep
      exact henter t _ (putItem_proper x prio)
  | getItem t =>
      obtain ⟨-, rfl⟩ := Conservation.step_getItem hstep
      exact henter t _ ⟨trivial, trivial⟩
  | run t spurious =>
      obtain ⟨pc, hpc, rfl⟩ := Conservation.step_run hstep
      intro u pc' hu
      by_cases hut : u = t
      · subst hut
        cases hr : (s.queue.step spurious s.next pc).2.2 with
        | goto pc'' =>
            simp only [afterRun, hr, Function.update_self, Option.some.injEq] at hu
            exact hu ▸ step_proper spurious s.queue s.next (h u pc hpc) hr
        | ret item more => simp [afterRun, hr] at hu
      · exact h u pc' (by simpa [afterRun, hut] using hu)
  | setNext x v =>
      obtain ⟨-, rfl⟩ := Conservation.step_setNext hstep
      exact h

theorem proper_reachable (h : (machine τ I).Reachable s) : Proper s := by
  refine Machine.Reach.invariant (M := machine τ I) (I := Proper) ?_ ?_ h
  · rintro s rfl t pc ht
    cases ht
  · intro s l s' hs _ hstep
    exact proper_step hs hstep

/-- A thread alone returns within its bound. -/
theorem returns_within (h : Inv s L) (ht : s.thread t = some pc)
    (hk : pc.Within s.queue s.next (queuedItems s.log).card k) :
    ∃ n ≤ k, ∃ s', (machine τ I).replay s (List.replicate n (.run t false)) = some s' ∧
      s'.thread t = none := by
  induction k generalizing s L pc with
  | zero => exact absurd hk.pos (by omega)
  | succ k ih =>
      obtain ⟨L', hL'⟩ := inv_run h ht false
      have hstep : Conservation.step s (.run t false) =
          some (afterRun s t pc (s.queue.step false s.next pc)) := by
        simp only [Conservation.step, ht]
      have hlists : ∀ c, ∃ l, Seg s.next (s.queue.head c) l none ∧
          l.length ≤ (queuedItems s.log).card := fun c =>
        ⟨_, h.cells c, length_le h _⟩
      cases hr : (s.queue.step false s.next pc).2.2 with
      -- one step less, and the thread is still inside its call
      | goto pc' =>
          have hlog : (afterRun s t pc (s.queue.step false s.next pc)).log = s.log := by
            simp [afterRun, hr]
          have hthread : (afterRun s t pc (s.queue.step false s.next pc)).thread t = some pc' := by
            simp [afterRun, hr]
          have hwithin := step_within hlists hk hr
          obtain ⟨n, hn, s', hs', hnone⟩ := ih hL' hthread (by rw [hlog]; exact hwithin)
          refine ⟨n + 1, by omega, s', ?_, hnone⟩
          rw [List.replicate_succ, Machine.replay]
          show (Conservation.step s (.run t false)).bind _ = _
          rw [hstep]
          exact hs'
      | ret item more =>
          refine ⟨1, by omega, afterRun s t pc (s.queue.step false s.next pc), ?_, ?_⟩
          · rw [List.replicate_one, Machine.replay]
            show (Conservation.step s (.run t false)).bind _ = _
            rw [hstep]
            rfl
          · simp [afterRun, hr]

/-- **No thread waits for a stalled one**: from every reachable state a call in
progress completes alone, in steps bounded by the queued items, and a list that
is walked is finite and acyclic. -/
theorem completes_alone (s : State τ I) (h : (machine τ I).Reachable s) (t : τ) (pc : Pc I)
    (ht : s.thread t = some pc) :
    (∃ n ≤ (queuedItems s.log).card + 55, ∃ s',
      (machine τ I).replay s (List.replicate n (.run t false)) = some s' ∧
        s'.thread t = none) ∧
      ∀ x, pc.walksFrom = some x → ∃ l, l.Nodup ∧ Seg s.next (some x) l none := by
  obtain ⟨L, hL⟩ := inv_reachable h
  have howns : pc.Owns s.next (L.at_ (.own t)) := by
    have := hL.threads t
    rwa [ht] at this
  have hproper := proper_reachable h t pc ht
  refine ⟨?_, fun x hx => howns.walks (L.nodup _) hx⟩
  exact returns_within hL ht (hproper.within howns (length_le hL _) s.queue)

/-- Thread `false` puts an item and stalls in the middle of a second put, at its
compare-exchange; thread `true` is about to store the rest of a list. -/
def stalledPut : List (Label Bool ℕ) :=
  [.putItem false 0 0, .run false false, .run false false, .run false false,
   .putItem true 1 0, .run true false, .run true false, .run true false,
   .getItem true, .run true false, .run true false, .run true false,
   .putItem false 2 0, .run false false, .run false false]

theorem completes_alone_stalledPut :
    ∃ (s : State Bool ℕ) (pc : Pc ℕ), s.thread true = some pc ∧ s.thread false ≠ none ∧
      (∃ n ≤ (queuedItems s.log).card + 55, ∃ s',
        (machine Bool ℕ).replay s (List.replicate n (.run true false)) = some s' ∧
          s'.thread true = none) ∧
        ∀ x, pc.walksFrom = some x → ∃ l, l.Nodup ∧ Seg s.next (some x) l none := by
  obtain ⟨s, hs, hp⟩ := Machine.exists_reach_of_replay (machine Bool ℕ) stalledPut
    (fun s => (s.thread true).isSome && (s.thread false).isSome) rfl (by decide)
  rw [Bool.and_eq_true, Option.isSome_iff_exists, Option.isSome_iff_exists] at hp
  obtain ⟨⟨pc, hpc⟩, pc', hpc'⟩ := hp
  exact ⟨s, pc, hpc, by simp [hpc'], completes_alone s hs true pc hpc⟩

end Progress

end Alterstack
