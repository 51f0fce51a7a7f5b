/-
  Alterstack.Queue.Bag — one call at a time, `LockFreeQueue` is a bag.

  Main results:
    * `Bag.drain` — `k` calls of `get_item` with no put in between return the
      minimum of `k` and the number of stored items, distinct ones;
    * `Bag.is_bag` — every sequential run, from any values of the wrapping
      positions, is a run of a bag.
-/
import Mathlib.Data.List.ReduceOption
import Alterstack.Queue.Progress
import Alterstack.Queue.Sequential

namespace Alterstack

namespace Bag

open Lib Queue LockFreeQueue
open Conservation (Event Holder State Label Inv holder)
open Progress (queuedItems mem_queuedItems)
open Alterstack.Sequential (machine StoreStep Sim)

variable {I : Type*} [DecidableEq I]

/-! ## §1. A bag. -/

/-- What the calls do to the items stored: `get_item` returns nothing when
there is nothing and one of the items otherwise, and says that there are more
only when there are. -/
inductive BagStep : Finset I → Event Unit I → Finset I → Prop
  | put {S : Finset I} {x : I} (t : Unit) (prio : UInt32) :
      x ∉ S → BagStep S (.put t x prio) (insert x S)
  | stored {S : Finset I} (t : Unit) : BagStep S (.stored t) S
  | wrote {S : Finset I} {x : I} (v : Option I) : x ∉ S → BagStep S (.wrote x v) S
  | gotNone (t : Unit) : BagStep ∅ (.got t none false) ∅
  | gotSome {S : Finset I} {x : I} {more : Bool} (t : Unit) :
      x ∈ S → (more = true → (S.erase x).Nonempty) → BagStep S (.got t (some x) more) (S.erase x)

def bag (I : Type*) [DecidableEq I] : Object (Finset I) (Event Unit I) where
  init := ∅
  step := BagStep

/-- The results of the calls of `get_item`, newest first. -/
def results : List (Event Unit I) → List (Option I)
  | [] => []
  | .got _ item _ :: log => item :: results log
  | .put _ _ _ :: log => results log
  | .stored _ :: log => results log
  | .wrote _ _ :: log => results log

/-- No `put_item` among the calls. -/
def NoPut : List (Event Unit I) → Prop
  | [] => True
  | .put _ _ _ :: _ => False
  | .got _ _ _ :: log => NoPut log
  | .stored _ :: log => NoPut log
  | .wrote _ _ :: log => NoPut log

variable {S T : Finset I} {log evs : List (Event Unit I)} {x : I}

/-- The bag holds the items that are put and not returned. -/
theorem legal_holder (h : (bag I).Legal log S) : x ∈ S ↔ holder log x = .queued := by
  induction h with
  | nil => simp [bag, holder]
  | cons _ hstep ih =>
      cases hstep with
      | put t prio hx =>
          simp only [holder, Finset.mem_insert]
          split
          next hy => simp [hy]
          next hy => simp [hy, ih]
      | stored t => simpa [holder] using ih
      | wrote v hx => simpa [holder] using ih
      | gotNone t => simpa [holder] using ih
      | gotSome t hx hmore =>
          simp only [holder, Finset.mem_erase, Option.mem_some_iff]
          split
          next hy => simp [hy]
          next hy => simp [ih, Ne.symm hy]

theorem legal_queuedItems (h : (bag I).Legal log S) : S = queuedItems log := by
  refine Finset.ext (fun x => ?_)
  rw [mem_queuedItems, legal_holder h]

/-- Calls of `get_item` with no put in between: the items returned are distinct,
they and the items still stored are those stored before, and a call returns
nothing only when nothing is left. -/
structure Drained (evs log : List (Event Unit I)) (T : Finset I) : Prop where
  nodup : (results evs).reduceOption.Nodup
  gone : ∀ x ∈ (results evs).reduceOption, x ∉ T
  split : ∀ x, x ∈ queuedItems log ↔ x ∈ (results evs).reduceOption ∨ x ∈ T
  full : (results evs).reduceOption.length = (results evs).length ∨ T = ∅

theorem drained (h : (bag I).Legal (evs ++ log) T) (hno : NoPut evs) : Drained evs log T := by
  induction evs generalizing T with
  | nil =>
      obtain rfl := legal_queuedItems h
      exact ⟨.nil, nofun, by simp [results], .inl rfl⟩
  | cons e evs ih =>
      obtain ⟨S, hS, hstep⟩ := Object.legal_cons.mp h
      cases hstep with
      | put t prio hx => exact hno.elim
      | stored t =>
          obtain ⟨hnodup, hgone, hsplit, hfull⟩ := ih hS hno
          exact ⟨hnodup, hgone, hsplit, hfull⟩
      | wrote v hx =>
          obtain ⟨hnodup, hgone, hsplit, hfull⟩ := ih hS hno
          exact ⟨hnodup, hgone, hsplit, hfull⟩
      -- the bag is empty from here on: nothing is left to return
      | gotNone t =>
          have hrest := ih hS hno
          have hsame : (results (.got t none false :: evs)).reduceOption =
              (results evs).reduceOption := List.reduceOption_cons_of_none (results evs)
          refine ⟨?_, ?_, ?_, .inr rfl⟩
          · rw [hsame]
            exact hrest.nodup
          · simp
          · rw [hsame]
            exact hrest.split
      -- `x` leaves the bag with this event, so the rest returns other items
      | @gotSome _ x more t hx hmore =>
          have hrest := ih hS hno
          have hcons : (results (.got t (some x) more :: evs)).reduceOption =
              x :: (results evs).reduceOption := List.reduceOption_cons_of_some x (results evs)
          refine ⟨?_, ?_, fun y => ?_, .inl ?_⟩
          · rw [hcons]
            exact List.nodup_cons.mpr ⟨fun hmem => hrest.gone x hmem hx, hrest.nodup⟩
          · rw [hcons]
            intro y hy hyS
            obtain ⟨hne, hyS⟩ := Finset.mem_erase.mp hyS
            rcases List.mem_cons.mp hy with rfl | hy
            · exact hne rfl
            · exact hrest.gone y hy hyS
          · rw [hcons, hrest.split y, List.mem_cons, Finset.mem_erase]
            by_cases hy : y = x
            · simp [hy, hx]
            · simp [hy]
          · rw [hcons, List.length_cons]
            rcases hrest.full with hfull | rfl
            · rw [hfull]
              rfl
            · exact absurd hx (Finset.notMem_empty x)

/-- **Draining.** -/
theorem drain (h : (bag I).Legal (evs ++ log) T) (hno : NoPut evs) :
    (results evs).reduceOption.Nodup ∧ (∀ x ∈ (results evs).reduceOption, holder log x = .queued) ∧
      (results evs).reduceOption.length = min (results evs).length (queuedItems log).card := by
  have hd := drained h hno
  refine ⟨hd.nodup, fun x hx => mem_queuedItems.mp ((hd.split x).mpr (.inl hx)), ?_⟩
  have hcard : (queuedItems log).card = (results evs).reduceOption.length + T.card := by
    have hunion : queuedItems log = (results evs).reduceOption.toFinset ∪ T := by
      refine Finset.ext (fun x => ?_)
      rw [hd.split x, Finset.mem_union, List.mem_toFinset]
    have hdisjoint : Disjoint (results evs).reduceOption.toFinset T :=
      Finset.disjoint_left.mpr fun x hx => hd.gone x (List.mem_toFinset.mp hx)
    rw [hunion, Finset.card_union_of_disjoint hdisjoint, List.toFinset_card_of_nodup hd.nodup]
  have hle : (results evs).reduceOption.length ≤ (results evs).length :=
    List.reduceOption_length_le _
  rcases hd.full with hfull | rfl
  · omega
  · rw [Finset.card_empty] at hcard
    omega

/-! ## §2. The store is a bag. -/

/-- The items of the store, as a set. -/
def Holding (A : Store I) (S : Finset I) : Prop := A.items = S.val

theorem holding_step {A B : Store I} {e : Event Unit I} (hA : Holding A S) (h : StoreStep A e B) :
    ∃ T, BagStep S e T ∧ Holding B T := by
  have hmem : ∀ x, x ∈ A.items ↔ x ∈ S := by
    intro x
    rw [hA]
    rfl
  cases h with
  | @put x t prio hx =>
      have hxS : x ∉ S := fun hxS => hx ((hmem x).mpr hxS)
      refine ⟨insert x S, .put t prio hxS, ?_⟩
      show (A.putItem x prio).items = (insert x S).val
      rw [Store.putItem_items, hA, Finset.insert_val_of_notMem hxS]
  | stored t => exact ⟨S, .stored t, hA⟩
  | @wrote x v hx => exact ⟨S, .wrote v (fun hxS => hx ((hmem x).mpr hxS)), hA⟩
  -- nothing is found only in an empty store
  | gotNone t hnone =>
      have hzero : A.items = 0 := Store.getItem_none.mp hnone
      have hS : S = ∅ := Finset.val_eq_zero.mp (hA.symm.trans hzero)
      subst hS
      exact ⟨∅, .gotNone t, hA⟩
  | @gotSome B x more t hget =>
      obtain ⟨hitems, hmore⟩ := Store.getItem_items hget
      have hx : x ∈ S := by
        rw [← hmem x, hitems]
        exact Multiset.mem_cons_self x B.items
      have hB : Holding B (S.erase x) := by
        show B.items = (S.erase x).val
        rw [Finset.erase_val, ← hA, hitems, Multiset.erase_cons_head]
      refine ⟨S.erase x, .gotSome t hx (fun htrue => ?_), hB⟩
      rw [Finset.nonempty_iff_ne_empty]
      intro hempty
      rw [hempty] at hB
      exact hmore htrue hB

theorem legal_bag {A : Store I} {g p : UInt32} (h : (Sequential.object I g p).Legal log A) :
    ∃ S, (bag I).Legal log S ∧ Holding A S := by
  have hinit : Holding (Sequential.object I g p).init (bag I).init := by
    show (Sequential.emptyStore g p : Store I).items = 0
    exact Sequential.emptyStore_items
  exact Object.Legal.simulate (P := bag I) (R := Holding) hinit
    (fun _ _ _ _ hA hstep => holding_step hA hstep) h

/-! ## §3. The queue is a bag. -/

/-- A run of a bag. -/
structure IsBag (g p : UInt32) (s : State Unit I) : Prop where
  legal : ∃ S, (bag I).Legal s.log S ∧ ∀ x, x ∈ S ↔ holder s.log x = .queued
  unlinked : ∀ t x more log, s.log = .got t (some x) more :: log → s.next x = none
  returns : s.thread () ≠ none → ∃ n s',
    (machine I g p).replay s (List.replicate n (.run () false)) = some s' ∧ s'.thread () = none
  drains : ∀ evs log, s.log = evs ++ log → NoPut evs →
    (results evs).reduceOption.Nodup ∧
      (∀ x ∈ (results evs).reduceOption, holder log x = .queued) ∧
      (results evs).reduceOption.length = min (results evs).length (queuedItems log).card

/-- **The queue is a bag.**  Whatever the positions at the start, every
sequential run is a run of a bag, its calls return, returned items are
unlinked, and `get_item` drains the bag one item at a time. -/
theorem is_bag (g p : UInt32) (s : State Unit I) (h : (machine I g p).Reachable s) :
    IsBag g p s := by
  obtain ⟨A, hA, hsim⟩ := Sequential.legal h
  obtain ⟨S, hS, -⟩ := legal_bag hA
  obtain ⟨L, hinv⟩ := Sequential.inv_reachable h
  refine ⟨⟨S, hS, fun x => legal_holder hS⟩, hinv.unlinked, fun hne => ?_, ?_⟩
  · obtain ⟨pc, hpc⟩ := Option.ne_none_iff_exists'.mp hne
    exact Sequential.returns hsim hpc
  · intro evs log hlog hno
    rw [hlog] at hS
    exact drain hS hno

/-- The positions are about to wrap.  Five items go on a stack; the first
`get_item` takes them all and puts four into one slot, the second spreads the
tail of three over the other slots. -/
def wrappingRun : List (Label Unit ℕ) :=
  [0, 1, 2, 3, 4].flatMap (fun x => [.putItem () x 2, .run () false, .run () false]) ++
  .getItem () :: List.replicate 14 (.run () false) ++
  .getItem () :: List.replicate 16 (.run () false)

theorem is_bag_wrappingRun :
    ∃ s : State Unit ℕ, results s.log = [some 3, some 4] ∧ s.thread () = none ∧
      s.queue.itemBuffer.putPosition = 4 ∧ IsBag 0xFFFFFFFE 0xFFFFFFFF s := by
  obtain ⟨s, hs, hp⟩ := Machine.exists_reach_of_replay (machine ℕ 0xFFFFFFFE 0xFFFFFFFF) wrappingRun
    (fun s => results s.log = [some 3, some 4] ∧ s.thread () = none ∧
      s.queue.itemBuffer.putPosition = 4)
    rfl (by decide)
  obtain ⟨hresults, hrest, hput⟩ := of_decide_eq_true hp
  exact ⟨s, hresults, hrest, hput, is_bag 0xFFFFFFFE 0xFFFFFFFF s hs⟩

end Bag

end Alterstack
