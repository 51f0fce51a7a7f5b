/-
  Alterstack.Queue.Priority — items of priority 0 before the others.

  An item of priority 0 goes on top of the slot at the get position and is
  returned by the next `get_item`, unless another one is put on top of it first.
  What lies under the returned item is spread over the slots from the put
  position on, behind whatever the buffer held.

  Main results:
    * `Priority.low_before_high` — so an item of priority 1 can come before a
      stored item of priority 0;
    * `Priority.high_first` — it does so only when it was put before that item,
      and that item was covered by another one of priority 0.
-/
import Alterstack.Queue.Sequential

namespace Alterstack

namespace Priority

open Lib Queue LockFreeQueue
open Conservation (Event Holder State Label holder)
open Alterstack.Sequential (machine StoreStep Sim)

variable {I : Type*} [DecidableEq I]

/-! ## §1. What the log says. -/

/-- The priority with which an item was last put. -/
def prioOf (x : I) : List (Event Unit I) → Option UInt32
  | [] => none
  | .put _ z prio :: log => if z = x then some prio else prioOf x log
  | .got _ _ _ :: log => prioOf x log
  | .stored _ :: log => prioOf x log
  | .wrote _ _ :: log => prioOf x log

/-- The item of priority 0 that was put last since the previous `get_item`. -/
def lastHigh : List (Event Unit I) → Option I
  | [] => none
  | .put _ z prio :: log => if prio = 0 then some z else lastHigh log
  | .got _ _ _ :: _ => none
  | .stored _ :: log => lastHigh log
  | .wrote _ _ :: log => lastHigh log

/-- `x` was last put before `y` was. -/
def PutBefore (x y : I) : List (Event Unit I) → Prop
  | [] => False
  | .put _ z _ :: log => z ≠ x ∧ (z = y ∨ PutBefore x y log)
  | .got _ _ _ :: log => PutBefore x y log
  | .stored _ :: log => PutBefore x y log
  | .wrote _ _ :: log => PutBefore x y log

/-- Since `y` was put and before the next `get_item`, another item of priority 0
was put. -/
def Covered (y : I) : List (Event Unit I) → Prop
  | [] => False
  | .put _ z prio :: log => z ≠ y ∧ (prio = 0 ∧ lastHigh log = some y ∨ Covered y log)
  | .got _ _ _ :: log => Covered y log
  | .stored _ :: log => Covered y log
  | .wrote _ _ :: log => Covered y log

/-- Items of priority 0 are put only while no other one is stored. -/
def OneHigh : List (Event Unit I) → Prop
  | [] => True
  | .put _ _ prio :: log =>
      (prio = 0 → ∀ y, holder log y = .queued → prioOf y log ≠ some 0) ∧ OneHigh log
  | .got _ _ _ :: log => OneHigh log
  | .stored _ :: log => OneHigh log
  | .wrote _ _ :: log => OneHigh log

instance decidableOneHigh [Fintype I] :
    (log : List (Event Unit I)) → Decidable (OneHigh log)
  | [] => inferInstanceAs (Decidable True)
  | .put _ _ prio :: log =>
      have := decidableOneHigh log
      inferInstanceAs (Decidable ((prio = 0 → ∀ y, holder log y = .queued →
        prioOf y log ≠ some 0) ∧ OneHigh log))
  | .got _ _ _ :: log => decidableOneHigh log
  | .stored _ :: log => decidableOneHigh log
  | .wrote _ _ :: log => decidableOneHigh log

/-- A stored item of priority 0. -/
def High (y : I) (log : List (Event Unit I)) : Prop :=
  holder log y = .queued ∧ prioOf y log = some 0

/-- What the results of `get_item` are: the item of priority 0 put last since
the previous call; and an item of another priority comes before a stored one of
priority 0 only when it was put before it and that one is covered. -/
def Ordered : List (Event Unit I) → Prop
  | [] => True
  | .got _ item _ :: log =>
      (∀ y, lastHigh log = some y → item = some y) ∧
      (∀ x ∈ item, prioOf x log ≠ some 0 → ∀ y, High y log → PutBefore x y log ∧ Covered y log) ∧
      Ordered log
  | .put _ _ _ :: log => Ordered log
  | .stored _ :: log => Ordered log
  | .wrote _ _ :: log => Ordered log

/-- No item of another priority is returned while one of priority 0 is stored. -/
def HighFirst : List (Event Unit I) → Prop
  | [] => True
  | .got _ item _ :: log =>
      (∀ x ∈ item, prioOf x log ≠ some 0 → ∀ y, ¬ High y log) ∧ HighFirst log
  | .put _ _ _ :: log => HighFirst log
  | .stored _ :: log => HighFirst log
  | .wrote _ _ :: log => HighFirst log

/-! ## §2. A run that returns a low item first. -/

/-- Four items of priority 1, of which two are returned: the buffer is left with
items 2 and 1 in two slots, and the put position is behind the get position.
Items 5 and 6 of priority 0 go on item 2; when item 6 is returned, item 5 goes
behind item 1. -/
def splitRun : List (Label Unit ℕ) :=
  [1, 2, 3, 4].flatMap (fun x => [.putItem () x 1, .run () false, .run () false]) ++
  .getItem () :: List.replicate 13 (.run () false) ++
  .getItem () :: List.replicate 9 (.run () false) ++
  .putItem () 5 0 :: List.replicate 3 (.run () false) ++
  .putItem () 6 0 :: List.replicate 3 (.run () false) ++
  .getItem () :: List.replicate 9 (.run () false) ++
  .getItem () :: List.replicate 3 (.run () false)

theorem low_before_high : ¬ ∀ s : State Unit ℕ, (machine ℕ 0 0).Reachable s → HighFirst s.log := by
  intro h
  obtain ⟨s, hs, hp⟩ := Machine.exists_reach_of_replay (machine ℕ 0 0) splitRun
    (fun s => match s.log with
      | .got _ item _ :: log =>
          ∃ x ∈ item, prioOf x log = some 1 ∧ holder log 5 = .queued ∧ prioOf 5 log = some 0
      | _ => False)
    rfl (by decide)
  have hfirst := h s hs
  split at hp
  next t item more log heq =>
    obtain ⟨x, hitem, hx, hqueued, hhigh⟩ := of_decide_eq_true hp
    rw [heq] at hfirst
    refine hfirst.1 x hitem ?_ 5 ⟨hqueued, hhigh⟩
    rw [hx]
    decide
  next => exact of_decide_eq_true hp

/-! ## §3. When it returns the high items first. -/

variable {log : List (Event Unit I)} {A B : Store I} {x y z : I}

/-- What every event keeps: items of priority 0 are in the buffer, the one put
last is on top of the slot at the get position, another one is covered, and what
was put after a stored item of priority 0 is still on a stack. -/
structure Inv (log : List (Event Unit I)) (A : Store I) : Prop where
  nodup : A.items.Nodup
  queued : ∀ x, x ∈ A.items ↔ holder log x = .queued
  high : ∀ y, High y log → y ∈ A.itemBuffer.items
  top : ∀ y, lastHigh log = some y → ∃ tail, A.itemBuffer.lists A.itemBuffer.get = y :: tail
  exposed : ∀ y, High y log → lastHigh log = some y ∨ Covered y log
  later : ∀ x y, holder log x = .queued → prioOf x log ≠ some 0 → High y log →
    ¬ PutBefore x y log → x ∉ A.itemBuffer.items

theorem inv_empty (g p : UInt32) : Inv [] (Sequential.emptyStore g p : Store I) := by
  have hempty : (Sequential.emptyStore g p : Store I).items = 0 := Sequential.emptyStore_items
  refine ⟨by simp [hempty], fun x => by simp [hempty, holder], ?_, ?_, ?_, ?_⟩
  · intro y hy
    cases hy.1
  · intro y hy
    cases hy
  · intro y hy
    cases hy.1
  · intro x y hx
    cases hx

omit [DecidableEq I] in
/-- The item on top is the next one. -/
theorem getItem_top {tail : List I} (h : A.itemBuffer.lists A.itemBuffer.get = y :: tail)
    {more : Bool} (hget : A.getItem = some (x, more, B)) : x = y := by
  have hfirst : A.itemBuffer.firstFull = some 0 := by
    refine scan_eq_some ?_ (fun j hj => absurd hj (Fin.not_lt_zero j))
    simp [h]
  have hlist : A.itemBuffer.lists (A.itemBuffer.get + 0) = y :: tail := by
    rw [add_zero]
    exact h
  have hbuf : ∃ more S, A.itemBuffer.getItem = some (y, more, S) := by
    simp only [Shelf.getItem, hfirst, hlist]
    split
    · exact ⟨_, _, rfl⟩
    · exact ⟨_, _, rfl⟩
  obtain ⟨more', S, hS⟩ := hbuf
  simp only [Store.getItem, hS, Option.some.injEq, Prod.mk.injEq] at hget
  exact hget.1.symm

theorem high_put {t : Unit} {prio : UInt32} :
    High y (.put t x prio :: log) ↔ y = x ∧ prio = 0 ∨ y ≠ x ∧ High y log := by
  unfold High
  by_cases hy : y = x
  · simp [holder, prioOf, hy]
  · simp [holder, prioOf, hy, Ne.symm hy]

theorem high_got {t : Unit} {item : Option I} {more : Bool} :
    High y (.got t item more :: log) ↔ y ∉ item ∧ High y log := by
  unfold High
  by_cases hy : y ∈ item
  · simp [holder, hy]
  · simp [holder, prioOf, hy]

theorem inv_put (h : Inv log A) (hx : x ∉ A.items) (t : Unit) (prio : UInt32) :
    Inv (.put t x prio :: log) (A.putItem x prio) := by
  have hbuffer : ∀ z, z ∈ (A.putItem x prio).itemBuffer.items ↔
      prio = 0 ∧ z = x ∨ z ∈ A.itemBuffer.items := by
    intro z
    unfold Store.putItem
    split
    next hprio => simp [hprio, Shelf.putPriority_items]
    next hprio => simp [hprio, Store.setStack]
  refine ⟨?nodup, fun z => ?queued, fun y hy => ?high, fun y hy => ?top, fun y hy => ?exposed,
    ?later⟩
  case nodup =>
    rw [Store.putItem_items]
    exact Multiset.nodup_cons.mpr ⟨hx, h.nodup⟩
  case queued =>
    rw [Store.putItem_items, Multiset.mem_cons, h.queued z]
    by_cases hz : z = x
    · simp [holder, hz]
    · simp [holder, hz]
  case high =>
    rw [hbuffer]
    rcases high_put.mp hy with ⟨rfl, hprio⟩ | ⟨-, hy⟩
    · exact .inl ⟨hprio, rfl⟩
    · exact .inr (h.high y hy)
  case top =>
    simp only [lastHigh] at hy
    unfold Store.putItem
    split at hy
    next hprio =>
      obtain rfl := Option.some.inj hy
      rw [if_pos hprio]
      exact ⟨A.itemBuffer.lists A.itemBuffer.get, by simp [Shelf.putPriority, Shelf.setList]⟩
    next hprio =>
      rw [if_neg hprio]
      exact h.top y hy
  -- the new item covers whoever was on top, unless its priority is not 0
  case exposed =>
    rcases high_put.mp hy with ⟨rfl, hprio⟩ | ⟨hyx, hy⟩
    · exact .inl (if_pos hprio)
    · by_cases hprio : prio = 0
      · rcases h.exposed y hy with hlast | hcovered
        · exact .inr ⟨Ne.symm hyx, .inl ⟨hprio, hlast⟩⟩
        · exact .inr ⟨Ne.symm hyx, .inr hcovered⟩
      · rcases h.exposed y hy with hlast | hcovered
        · exact .inl ((if_neg hprio).trans hlast)
        · exact .inr ⟨Ne.symm hyx, .inr hcovered⟩
  case later =>
    intro z y hz hlow hy hbefore
    rw [hbuffer]
    rintro (⟨hprio, rfl⟩ | hmem)
    · exact hlow (by simp [prioOf, hprio])
    · have hzx : z ≠ x := by
        rintro rfl
        exact hx (Store.mem_items.mpr (.inl hmem))
      rcases high_put.mp hy with ⟨rfl, -⟩ | ⟨hyx, hy⟩
      · exact hbefore ⟨Ne.symm hzx, .inl rfl⟩
      · refine h.later z y ?_ ?_ hy (fun hlog => hbefore ⟨Ne.symm hzx, .inr hlog⟩) hmem
        · simpa [holder, hzx] using hz
        · simpa [prioOf, Ne.symm hzx] using hlow

/-- What `get_item` returns. -/
theorem ordered_got (h : Inv log A) {more : Bool} (hget : A.getItem = some (x, more, B)) :
    (∀ y, lastHigh log = some y → x = y) ∧
      (prioOf x log ≠ some 0 → ∀ y, High y log → PutBefore x y log ∧ Covered y log) := by
  have hlast : ∀ y, lastHigh log = some y → x = y := by
    intro y hy
    obtain ⟨tail, htail⟩ := h.top y hy
    exact getItem_top htail hget
  have hx : holder log x = .queued := by
    rw [← h.queued x, (Store.getItem_items hget).1]
    exact Multiset.mem_cons_self x B.items
  refine ⟨hlast, fun hlow y hy => ⟨?_, ?_⟩⟩
  · by_contra hbefore
    have hbuf := h.later x y hx hlow hy hbefore
    rcases Store.getItem_cases hget with ⟨S, hS, -⟩ | ⟨hempty, -⟩
    · rw [(Shelf.getItem_items hS).1] at hbuf
      exact hbuf (Multiset.mem_cons_self x S.items)
    · -- the stacks are only looked at when the buffer is empty
      have := h.high y hy
      rw [hempty] at this
      exact Multiset.notMem_zero y this
  · refine (h.exposed y hy).resolve_left (fun hy' => hlow ?_)
    rw [hlast y hy']
    exact hy.2

theorem inv_got (h : Inv log A) (t : Unit) {more : Bool} (hget : A.getItem = some (x, more, B)) :
    Inv (.got t (some x) more :: log) B := by
  have hitems := (Store.getItem_items hget).1
  have hnodup := h.nodup
  rw [hitems, Multiset.nodup_cons] at hnodup
  -- a stack is drained only when nothing of priority 0 is stored
  have hbuffer : ∀ y, High y log → A.itemBuffer.items = x ::ₘ B.itemBuffer.items := by
    intro y hy
    rcases Store.getItem_cases hget with ⟨S, hS, rfl⟩ | ⟨hempty, -⟩
    · exact (Shelf.getItem_items hS).1
    · have := h.high y hy
      rw [hempty] at this
      exact absurd this (Multiset.notMem_zero y)
  refine ⟨hnodup.2, fun z => ?queued, fun y hy => ?high, fun y hy => ?top, fun y hy => ?exposed,
    ?later⟩
  case queued =>
    have hz := h.queued z
    rw [hitems, Multiset.mem_cons] at hz
    by_cases hzx : x = z
    · subst hzx
      simp [holder, hnodup.1]
    · simp only [holder, Option.mem_some_iff, if_neg hzx, ← hz]
      exact ⟨.inr, fun hor => hor.resolve_left (Ne.symm hzx)⟩
  case high =>
    obtain ⟨hyx, hy⟩ := high_got.mp hy
    have hmem := h.high y hy
    rw [hbuffer y hy, Multiset.mem_cons] at hmem
    exact hmem.resolve_left (fun heq => hyx (heq ▸ rfl))
  case top =>
    cases hy
  case exposed =>
    obtain ⟨hyx, hy⟩ := high_got.mp hy
    refine .inr ((h.exposed y hy).resolve_left (fun hlast => hyx ?_))
    exact congrArg some ((ordered_got h hget).1 y hlast)
  case later =>
    intro z y hz hlow hy hbefore hmem
    obtain ⟨hyx, hy⟩ := high_got.mp hy
    have hzx : x ≠ z := by
      rintro rfl
      simp [holder] at hz
    refine h.later z y ?_ hlow hy hbefore ?_
    · simpa [holder, hzx] using hz
    · rw [hbuffer y hy]
      exact Multiset.mem_cons_of_mem hmem

/-- An empty store has no item of priority 0. -/
theorem inv_gotNone (h : Inv log A) (t : Unit) (hnone : A.getItem = none) :
    Inv (.got t none false :: log) A ∧ lastHigh log = none := by
  have hempty : ∀ y, y ∉ A.items := by
    intro y
    rw [Store.getItem_none.mp hnone]
    exact Multiset.notMem_zero y
  have hnobody : ∀ y, ¬ High y (.got t none false :: log) := fun y hy =>
    hempty y ((h.queued y).mpr (high_got.mp hy).2.1)
  refine ⟨⟨h.nodup, fun x => ?_, fun y hy => ?_, fun y hy => ?_, fun y hy => ?_, ?_⟩, ?_⟩
  · simpa [holder] using h.queued x
  · exact absurd hy (hnobody y)
  · cases hy
  · exact absurd hy (hnobody y)
  · intro x y _ _ hy
    exact absurd hy (hnobody y)
  · cases hlast : lastHigh log with
    | none => rfl
    | some y =>
        obtain ⟨tail, htail⟩ := h.top y hlast
        have hmem : y ∈ A.itemBuffer.lists A.itemBuffer.get := by
          rw [htail]
          exact List.mem_cons_self
        exact absurd (Store.mem_items.mpr (.inl (Shelf.mem_items.mpr ⟨_, hmem⟩))) (hempty y)

theorem legal_ordered {g p : UInt32} (h : (Sequential.object I g p).Legal log A) :
    Inv log A ∧ Ordered log := by
  induction h with
  | nil => exact ⟨inv_empty g p, trivial⟩
  | cons _ hstep ih =>
      obtain ⟨hinv, hordered⟩ := ih
      cases hstep with
      | put t prio hx => exact ⟨inv_put hinv hx t prio, hordered⟩
      | stored t =>
          exact ⟨⟨hinv.nodup, hinv.queued, hinv.high, hinv.top, hinv.exposed, hinv.later⟩, hordered⟩
      | wrote v hx =>
          exact ⟨⟨hinv.nodup, hinv.queued, hinv.high, hinv.top, hinv.exposed, hinv.later⟩, hordered⟩
      | gotNone t hnone =>
          obtain ⟨hnext, hlast⟩ := inv_gotNone hinv t hnone
          refine ⟨hnext, ?_, nofun, hordered⟩
          intro y hy
          rw [hlast] at hy
          cases hy
      | gotSome t hget =>
          obtain ⟨hlast, hexcept⟩ := ordered_got hinv hget
          refine ⟨inv_got hinv t hget, ?_, ?_, hordered⟩
          · intro y hy
            rw [hlast y hy]
          · intro x hx hlow
            cases hx
            exact hexcept hlow

/-- No item is covered when items of priority 0 are put one at a time. -/
theorem not_covered (h : OneHigh log) (hy : High y log) : ¬ Covered y log := by
  induction log with
  | nil => exact id
  | cons e log ih =>
      cases e with
      | put t z prio =>
          rintro ⟨hzy, ⟨hprio, -⟩ | hcovered⟩
          · have hold := (high_put.mp hy).resolve_left (fun hz => hzy hz.1.symm)
            exact h.1 hprio y hold.2.1 hold.2.2
          · have hold := (high_put.mp hy).resolve_left (fun hz => hzy hz.1.symm)
            exact ih h.2 hold.2 hcovered
      | got t item more =>
          exact ih h (high_got.mp hy).2
      | stored t => exact ih h hy
      | wrote x v => exact ih h hy

theorem Ordered.highFirst (h : Ordered log) (hone : OneHigh log) : HighFirst log := by
  induction log with
  | nil => trivial
  | cons e log ih =>
      cases e with
      | put t z prio => exact ih h hone.2
      | got t item more =>
          have hone' : OneHigh log := hone
          refine ⟨fun x hx hlow y hy => ?_, ih h.2.2 hone⟩
          exact not_covered hone' hy (h.2.1 x hx hlow y hy).2
      | stored t => exact ih h hone
      | wrote x v => exact ih h hone

/-- **High priority first, as far as it goes.**  `get_item` returns the item of
priority 0 put last since the previous call; an item of another priority comes
before a stored one of priority 0 only when it was put earlier and the other one
is covered; and never when items of priority 0 are put one at a time. -/
theorem high_first (g p : UInt32) (s : State Unit I) (h : (machine I g p).Reachable s) :
    Ordered s.log ∧ (OneHigh s.log → HighFirst s.log) := by
  obtain ⟨A, hA, -⟩ := Sequential.legal h
  have hordered := (legal_ordered hA).2
  exact ⟨hordered, hordered.highFirst⟩

/-- An item of priority 1, then one of priority 0, which is returned first. -/
def lowThenHigh : List (Label Unit Bool) :=
  .putItem () false 1 :: List.replicate 2 (.run () false) ++
  .putItem () true 0 :: List.replicate 3 (.run () false) ++
  .getItem () :: List.replicate 3 (.run () false)

theorem high_first_lowThenHigh :
    ∃ s : State Unit Bool, holder s.log true = .returned () ∧ holder s.log false = .queued ∧
      Ordered s.log ∧ HighFirst s.log := by
  obtain ⟨s, hs, hp⟩ := Machine.exists_reach_of_replay (machine Bool 0 0) lowThenHigh
    (fun s => holder s.log true = .returned () ∧ holder s.log false = .queued ∧ OneHigh s.log)
    rfl (by decide)
  obtain ⟨hreturned, hqueued, hone⟩ := of_decide_eq_true hp
  obtain ⟨hordered, hfirst⟩ := high_first 0 0 s hs
  exact ⟨s, hreturned, hqueued, hordered, hfirst hone⟩

end Priority

end Alterstack
