/-
  Alterstack.Queue.Fairness — no starvation within a priority level.

  Calls run one at a time and all puts go to one stack.  The stack is drained
  only when the buffer is empty, and then as a whole: of the items that were in
  the buffer when `x` was put, none comes back to it before `x` does.

  Main results:
    * `Fairness.fair_step` — how often other items may have been returned
      since `x` was put, by where `x` and they are now;
    * `Fairness.at_most_twice` — never more than twice.
-/
import Alterstack.Queue.Sequential

namespace Alterstack

namespace Fairness

open Lib Queue LockFreeQueue
open Conservation (Event Holder State Label holder)
open Alterstack.Sequential (machine StoreStep Sim)

variable {I : Type*} [DecidableEq I]

/-- The same level: the same priority, but that all from 3 on are one. -/
def SameLevel (prio prio' : UInt32) : Prop := prio = prio' ∨ 3 ≤ prio ∧ 3 ≤ prio'

instance (prio prio' : UInt32) : Decidable (SameLevel prio prio') :=
  inferInstanceAs (Decidable (_ ∨ _))

/-- All puts go to the level of `prio`. -/
def OneLevel (prio : UInt32) : List (Event Unit I) → Prop
  | [] => True
  | .put _ _ prio' :: log => SameLevel prio' prio ∧ OneLevel prio log
  | .got _ _ _ :: log => OneLevel prio log
  | .stored _ :: log => OneLevel prio log
  | .wrote _ _ :: log => OneLevel prio log

instance decidableOneLevel (prio : UInt32) :
    (log : List (Event Unit I)) → Decidable (OneLevel prio log)
  | [] => inferInstanceAs (Decidable True)
  | .put _ _ prio' :: log =>
      have := decidableOneLevel prio log
      inferInstanceAs (Decidable (SameLevel prio' prio ∧ OneLevel prio log))
  | .got _ _ _ :: log => decidableOneLevel prio log
  | .stored _ :: log => decidableOneLevel prio log
  | .wrote _ _ :: log => decidableOneLevel prio log

/-- How often `y` was returned since `x` was last put. -/
def gotsSince (x y : I) : List (Event Unit I) → ℕ
  | [] => 0
  | .put _ z _ :: log => if z = x then 0 else gotsSince x y log
  | .got _ item _ :: log => (if y ∈ item then 1 else 0) + gotsSince x y log
  | .stored _ :: log => gotsSince x y log
  | .wrote _ _ :: log => gotsSince x y log

theorem SameLevel.level_eq {prio prio' : UInt32} (h : SameLevel prio prio') :
    Store.level prio = Store.level prio' := by
  rcases h with rfl | ⟨h, h'⟩
  · rfl
  · simp only [Store.level, if_pos h, if_pos h']

/-- The counts by places: while `x` is on the stack, an item still in the buffer
was not returned yet, and no other item twice; while `x` is in the buffer, an
item there was returned once at most. -/
structure Fair (i : Fin queueCount) (log : List (Event Unit I)) (A : Store I) : Prop where
  nodup : A.items.Nodup
  others : ∀ j, j ≠ i → A.prioQueue j = []
  onStack : ∀ x ∈ A.prioQueue i, ∀ y ≠ x,
    gotsSince x y log ≤ if y ∈ A.itemBuffer.items then 0 else 1
  inBuffer : ∀ x ∈ A.itemBuffer.items, ∀ y ≠ x,
    gotsSince x y log ≤ if y ∈ A.itemBuffer.items then 1 else 2

variable {i : Fin queueCount} {log : List (Event Unit I)} {A B : Store I} {x : I}

theorem fair_put (h : Fair i log A) (hx : x ∉ A.items) (t : Unit) {prio : UInt32}
    (hprio : prio ≠ 0) (hi : Store.level prio = i) :
    Fair i (.put t x prio :: log) (A.putItem x prio) := by
  have hput : A.putItem x prio = A.setStack i (x :: A.prioQueue i) := by
    rw [Store.putItem, if_neg hprio, hi]
  have hsince : ∀ z, z ≠ x → ∀ y, gotsSince z y (.put t x prio :: log) = gotsSince z y log :=
    fun z hz y => if_neg (Ne.symm hz)
  refine ⟨?_, fun j hj => ?_, fun z hz y hy => ?_, fun z hz y hy => ?_⟩
  · rw [Store.putItem_items]
    exact Multiset.nodup_cons.mpr ⟨hx, h.nodup⟩
  · rw [hput]
    simpa [Store.setStack, hj] using h.others j hj
  -- no return can be later than the put of the new item
  · rw [hput] at hz ⊢
    simp only [Store.setStack, Function.update_self, List.mem_cons] at hz ⊢
    by_cases hzx : z = x
    · subst hzx
      simp [gotsSince]
    · rw [hsince z hzx]
      exact h.onStack z (hz.resolve_left hzx) y hy
  · rw [hput] at hz ⊢
    have hzx : z ≠ x := by
      rintro rfl
      exact hx (Store.mem_items.mpr (.inl hz))
    rw [hsince z hzx]
    exact h.inBuffer z hz y hy

/-- The item comes from the buffer. -/
theorem fair_got_buffer (h : Fair i log A) (t : Unit) {more : Bool} {S : Queue.Shelf I}
    (hget : A.itemBuffer.getItem = some (x, more, S))
    (hnodup : ({ A with itemBuffer := S } : Store I).items.Nodup) :
    Fair i (.got t (some x) more :: log) { A with itemBuffer := S } := by
  have hitems : A.itemBuffer.items = x ::ₘ S.items := (Shelf.getItem_items hget).1
  have hx : x ∉ S.items := by
    have := (Multiset.nodup_add.mp h.nodup).1
    rw [hitems, Multiset.nodup_cons] at this
    exact this.1
  have hmem : ∀ y, y ∈ A.itemBuffer.items ↔ y = x ∨ y ∈ S.items := by
    simp [hitems]
  refine ⟨hnodup, h.others, fun z hz y hy => ?_, fun z hz y hy => ?_⟩
  -- the returned item leaves the buffer, and the bound on its returns rises
  -- with their number
  · have hold := h.onStack z hz y hy
    simp only [gotsSince, Option.mem_some_iff, hmem] at hold ⊢
    by_cases hyx : x = y
    · subst hyx
      simp [hx] at hold ⊢
      omega
    · simpa [hyx, Ne.symm hyx] using hold
  · have hold := h.inBuffer z ((hmem z).mpr (.inr hz)) y hy
    simp only [gotsSince, Option.mem_some_iff, hmem] at hold ⊢
    by_cases hyx : x = y
    · subst hyx
      simp [hx] at hold ⊢
      omega
    · simpa [hyx, Ne.symm hyx] using hold

/-- The stack is drained. -/
theorem fair_got_stack (h : Fair i log A) (t : Unit) {more : Bool} {rest : List I}
    (hempty : A.itemBuffer.items = 0) (hstack : A.prioQueue i = x :: rest)
    (hB : B.prioQueue = Function.update A.prioQueue i []) (hrest : B.itemBuffer.items = rest)
    (hitems : A.items = x ::ₘ B.items) : Fair i (.got t (some x) more :: log) B := by
  have hnodup := h.nodup
  rw [hitems, Multiset.nodup_cons] at hnodup
  have hx : x ∉ B.itemBuffer.items := fun hmem => hnodup.1 (Store.mem_items.mpr (.inl hmem))
  refine ⟨hnodup.2, fun j hj => ?_, fun z hz y hy => ?_, fun z hz y hy => ?_⟩
  · rw [hB, Function.update_of_ne hj]
    exact h.others j hj
  · rw [hB, Function.update_self] at hz
    cases hz
  · have hz' : z ∈ A.prioQueue i := by
      rw [hrest] at hz
      rw [hstack]
      exact List.mem_cons_of_mem x (Multiset.mem_coe.mp hz)
    -- nothing was in the buffer, so no item was returned twice
    have hold := h.onStack z hz' y hy
    rw [hempty, if_neg (Multiset.notMem_zero y)] at hold
    simp only [gotsSince, Option.mem_some_iff]
    by_cases hyx : x = y
    · subst hyx
      rw [if_pos rfl, if_neg hx]
      omega
    · rw [if_neg hyx]
      split <;> omega

/-- Every event keeps the counts. -/
theorem fair_step {prio : UInt32} (hprio : prio ≠ 0) (h : Fair (Store.level prio) log A)
    {e : Event Unit I} (hone : OneLevel prio (e :: log)) (hstep : StoreStep A e B) :
    Fair (Store.level prio) (e :: log) B := by
  cases hstep with
  | @put x t prio' hx =>
      have hsame : SameLevel prio' prio := hone.1
      have hprio' : prio' ≠ 0 := by
        rcases hsame with rfl | ⟨hge, -⟩
        · exact hprio
        · rintro rfl
          exact absurd hge (by decide)
      exact fair_put h hx t hprio' hsame.level_eq
  | stored t => exact ⟨h.nodup, h.others, h.onStack, h.inBuffer⟩
  | wrote v hx => exact ⟨h.nodup, h.others, h.onStack, h.inBuffer⟩
  | gotNone t hnone =>
      have hsame : ∀ z y, gotsSince z y (.got t none false :: log) = gotsSince z y log := by
        intro z y
        simp [gotsSince]
      refine ⟨h.nodup, h.others, fun z hz y hy => ?_, fun z hz y hy => ?_⟩
      · rw [hsame]
        exact h.onStack z hz y hy
      · rw [hsame]
        exact h.inBuffer z hz y hy
  | @gotSome _ x more t hget =>
      have hitems := (Store.getItem_items hget).1
      rcases Store.getItem_cases hget with ⟨S, hbuf, rfl⟩ | ⟨hempty, j, rest, -, hstack, hB, hrest⟩
      · have hnodup := h.nodup
        rw [hitems, Multiset.nodup_cons] at hnodup
        exact fair_got_buffer h t hbuf hnodup.2
      · -- only the stack that the puts go to can be drained
        have hj : j = Store.level prio := by
          by_contra hne
          rw [h.others j hne] at hstack
          cases hstack
        subst hj
        exact fair_got_stack h t hempty hstack hB hrest hitems

theorem fair_legal {g p prio : UInt32} (hprio : prio ≠ 0)
    (h : (Sequential.object I g p).Legal log A) (hone : OneLevel prio log) :
    Fair (Store.level prio) log A := by
  induction h with
  | nil =>
      have hempty : (Sequential.emptyStore g p : Store I).items = 0 := Sequential.emptyStore_items
      have hnone : ∀ x, x ∉ (Sequential.emptyStore g p : Store I).items := by simp [hempty]
      refine ⟨?_, fun _ _ => rfl, fun x hx => ?_, fun x hx => ?_⟩
      · show (Sequential.emptyStore g p : Store I).items.Nodup
        simp [hempty]
      · exact absurd (Store.mem_items.mpr (.inr ⟨_, hx⟩)) (hnone x)
      · exact absurd (Store.mem_items.mpr (.inl hx)) (hnone x)
  | @cons log A B e hlegal hstep ih =>
      have hold : OneLevel prio log := by
        cases e with
        | put => exact hone.2
        | got => exact hone
        | stored => exact hone
        | wrote => exact hone
      exact fair_step hprio (ih hold) hone hstep

/-- **No starvation.**  All puts of the run go to the level of `prio`: while
`x` is in the queue, no other item is returned more than twice. -/
theorem at_most_twice (g p prio : UInt32) (hprio : prio ≠ 0) (s : State Unit I)
    (h : (machine I g p).Reachable s) (hone : OneLevel prio s.log) (x y : I) (hxy : y ≠ x)
    (hx : holder s.log x = .queued) : gotsSince x y s.log ≤ 2 := by
  obtain ⟨A, hA, hsim⟩ := Sequential.legal h
  have hfair := fair_legal hprio hA hone
  rcases Store.mem_items.mp ((hsim.holder x).mpr hx) with hbuf | ⟨j, hstack⟩
  · have := hfair.inBuffer x hbuf y hxy
    split at this <;> omega
  · have hj : j = Store.level prio := by
      by_contra hne
      rw [hfair.others j hne] at hstack
      cases hstack
    subst hj
    have := hfair.onStack x hstack y hxy
    split at this <;> omega

/-- Item 0 is in the buffer when item 2 is put; it is returned, put again on top
of item 2 and returned once more. -/
def overtaking : List (Label Unit ℕ) :=
  [.putItem () 0 5, .run () false, .run () false, .putItem () 1 3, .run () false, .run () false] ++
  .getItem () :: List.replicate 15 (.run () false) ++
  [.putItem () 2 7, .run () false, .run () false] ++
  .getItem () :: List.replicate 3 (.run () false) ++
  [.putItem () 0 3, .run () false, .run () false] ++
  .getItem () :: List.replicate 15 (.run () false)

theorem at_most_twice_overtaking :
    ∃ s : State Unit ℕ, gotsSince 2 0 s.log = 2 ∧ gotsSince 2 0 s.log ≤ 2 := by
  obtain ⟨s, hs, hp⟩ := Machine.exists_reach_of_replay (machine ℕ 0 0) overtaking
    (fun s => gotsSince 2 0 s.log = 2 ∧ holder s.log 2 = .queued ∧ OneLevel 3 s.log)
    rfl (by decide)
  obtain ⟨htwo, hqueued, hone⟩ := of_decide_eq_true hp
  exact ⟨s, htwo, at_most_twice 0 0 3 (by decide) s hs hone 2 0 (by decide) hqueued⟩

end Fairness

end Alterstack
