/-
  Alterstack.Queue.Stack — `LockFreeStack` is a sequential stack with push and
  pop-all.

  Any number of threads call `push` and `pop_list`.  An item is pushed while it
  is outside (not stored and in no `push`) and its link is null; outside, its
  link may be written in any way.  The ghost `log` gets a call at the access
  that makes it take effect: the successful compare-exchange of `push`, the
  exchange of `pop_list`.  A stale `head` that has been popped and pushed again
  in between does no harm: the item is linked to whatever is the head now.

  Main results:
    * `Stack.linearizable` — the calls have taken effect, one after another, as
      the calls of a stack, whose content is the items pushed since the last
      pop, newest first.
-/
import Alterstack.Lib.Object
import Alterstack.Lib.Segment
import Alterstack.Queue.Code

namespace Alterstack

namespace Stack

open Lib Queue.LockFreeStack

/-! ## §1. The machine. -/

/-- A call that has taken effect: `push(x)` returns whether the stack was
empty, `pop_list` returns a head, with the links as they are then. -/
inductive Event (τ I : Type*) where
  | pushed (t : τ) (x : I) (wasEmpty : Bool)
  | popped (t : τ) (head : Option I) (next : I → Option I)

variable {τ I : Type*} [DecidableEq τ] [DecidableEq I]

/-- The items whose push took effect since the last `pop_list`, newest first. -/
def sinceLastPop : List (Event τ I) → List I
  | [] => []
  | .pushed _ x _ :: log => x :: sinceLastPop log
  | .popped _ _ _ :: _ => []

structure State (τ I : Type*) where
  mHead : Option I
  next : I → Option I
  /-- the item and the control point of a thread inside `push` -/
  pushing : τ → Option (I × PushPc I)
  /-- stored, or in a `push` -/
  inside : I → Bool
  log : List (Event τ I)

/-- A thread calls `push`, performs a step of it, or calls `pop_list`; the link
of an item outside is written. -/
inductive Label (τ I : Type*) where
  | push (t : τ) (x : I)
  | run (t : τ) (spurious : Bool)
  | popList (t : τ)
  | setNext (x : I) (v : Option I)

/-- The state after a step of `push(x)` of thread `t`. -/
def afterPush (s : State τ I) (t : τ) (x : I) (r : Option I × (I → Option I) × PushNext I) :
    State τ I :=
  { s with
    mHead := r.1
    next := r.2.1
    pushing := Function.update s.pushing t
      (match r.2.2 with
        | .goto pc => some (x, pc)
        | .ret _ => none)
    log := match r.2.2 with
      | .goto _ => s.log
      | .ret wasEmpty => .pushed t x wasEmpty :: s.log }

def step (s : State τ I) : Label τ I → Option (State τ I)
  | .push t x =>
      if s.pushing t = none ∧ s.inside x = false ∧ s.next x = none then
        some { s with
          pushing := Function.update s.pushing t (some (x, .load))
          inside := Function.update s.inside x true }
      else none
  | .run t spurious =>
      match s.pushing t with
      | some (x, pc) => some (afterPush s t x (push spurious x s.mHead s.next pc))
      | none => none
  | .popList t =>
      if s.pushing t = none then
        let r := popList s.mHead
        some { s with
          mHead := r.1
          inside := fun x => s.inside x && !(sinceLastPop s.log).contains x
          log := .popped t r.2 s.next :: s.log }
      else none
  | .setNext x v =>
      if s.inside x = false then some { s with next := Function.update s.next x v } else none

/-- The stack as constructed. -/
def initial : State τ I where
  mHead := none
  next := fun _ => none
  pushing := fun _ => none
  inside := fun _ => false
  log := []

def machine (τ I : Type*) [DecidableEq τ] [DecidableEq I] : Machine (State τ I) (Label τ I) where
  init := fun s => s = initial
  step := step

/-! ## §2. The sequential stack. -/

/-- A stack with push and pop-all: `push` says whether it was empty, `pop_list`
returns a null-terminated list of the content. -/
def stack (τ I : Type*) : Object (List I) (Event τ I) where
  init := []
  step
    | content, .pushed _ x wasEmpty, content' =>
        x ∉ content ∧ (wasEmpty = true ↔ content = []) ∧ content' = x :: content
    | content, .popped _ head next, content' =>
        content.Nodup ∧ Seg next head content none ∧ content' = []

omit [DecidableEq τ] [DecidableEq I] in
/-- The content is determined by the log. -/
theorem legal_content {log : List (Event τ I)} {content : List I}
    (h : (stack τ I).Legal log content) : content = sinceLastPop log := by
  induction log generalizing content with
  | nil => exact Object.legal_nil.mp h
  | cons e log ih =>
      obtain ⟨before, hbefore, hstep⟩ := Object.legal_cons.mp h
      cases e with
      | pushed t x wasEmpty =>
          obtain ⟨-, -, rfl⟩ := hstep
          rw [sinceLastPop, ← ih hbefore]
      | popped t head next => exact hstep.2.2

/-! ## §3. The simulation. -/

/-- The state holds `content`; a `push` at its compare-exchange has linked its
item to the head it expects. -/
structure Holds (s : State τ I) (content : List I) : Prop where
  eq : content = sinceLastPop s.log
  seg : Seg s.next s.mHead content none
  nodup : content.Nodup
  stored : ∀ x ∈ content, s.inside x = true
  pushing : ∀ t x pc, s.pushing t = some (x, pc) → s.inside x = true ∧ x ∉ content
  linked : ∀ t x head, s.pushing t = some (x, .cas head) → s.next x = head
  apart : ∀ t u x pc pc', s.pushing t = some (x, pc) → s.pushing u = some (x, pc') → t = u

variable {s s' : State τ I} {content : List I} {t : τ} {x : I}

omit [DecidableEq τ] [DecidableEq I] in
theorem holds_initial : Holds (initial : State τ I) [] where
  eq := rfl
  seg := rfl
  nodup := List.nodup_nil
  stored := by simp
  pushing := by simp [initial]
  linked := by simp [initial]
  apart := by simp [initial]

/-- `push(x)` is called. -/
theorem holds_call (h : Holds s content) (hx : s.inside x = false) :
    Holds { s with pushing := Function.update s.pushing t (some (x, .load))
                   inside := Function.update s.inside x true } content := by
  have hnot : x ∉ content := fun hmem => by simp [h.stored x hmem] at hx
  -- a node outside the stack is nobody's
  have hbusy : ∀ u pc, s.pushing u ≠ some (x, pc) := fun u pc hu => by
    simp [(h.pushing u x pc hu).1] at hx
  refine ⟨h.eq, h.seg, h.nodup, fun y hy => ?_, fun u y pc hu => ?_, fun u y head hu => ?_,
    fun u v y pc pc' hu hv => ?_⟩
  · have : y ≠ x := fun hyx => hnot (hyx ▸ hy)
    simpa [this] using h.stored y hy
  · by_cases hut : u = t
    · subst hut
      simp only [Function.update_self, Option.some.injEq, Prod.mk.injEq] at hu
      obtain ⟨rfl, -⟩ := hu
      exact ⟨by simp, hnot⟩
    · simp only [Function.update_of_ne hut] at hu
      have hyx : y ≠ x := fun hyx => hbusy u pc (hyx ▸ hu)
      simpa [hyx] using h.pushing u y pc hu
  · by_cases hut : u = t
    · subst hut
      simp at hu
    · exact h.linked u y head (by simpa [hut] using hu)
  · by_cases hut : u = t <;> by_cases hvt : v = t
    · rw [hut, hvt]
    · subst hut
      simp only [Function.update_self, Option.some.injEq, Prod.mk.injEq] at hu
      exact absurd (by simpa [hvt, ← hu.1] using hv) (hbusy v pc')
    · subst hvt
      simp only [Function.update_self, Option.some.injEq, Prod.mk.injEq] at hv
      exact absurd (by simpa [hut, ← hv.1] using hu) (hbusy u pc)
    · exact h.apart u v y pc pc' (by simpa [hut] using hu) (by simpa [hvt] using hv)

/-- A step of `push(x)` that links `x` to the current head and stays before
its compare-exchange. -/
theorem holds_link (h : Holds s content) {pc : PushPc I} (ht : s.pushing t = some (x, pc)) :
    Holds { s with next := Function.update s.next x s.mHead
                   pushing := Function.update s.pushing t (some (x, .cas s.mHead)) } content := by
  obtain ⟨hinside, hnot⟩ := h.pushing t x pc ht
  have hself : ∀ u y pc', Function.update s.pushing t (some (x, .cas s.mHead)) u = some (y, pc') →
      ∃ pc'', s.pushing u = some (y, pc'') := by
    intro u y pc' hu
    by_cases hut : u = t
    · subst hut
      simp only [Function.update_self, Option.some.injEq, Prod.mk.injEq] at hu
      exact ⟨pc, hu.1 ▸ ht⟩
    · exact ⟨pc', by simpa [hut] using hu⟩
  refine ⟨h.eq, h.seg.frame hnot _, h.nodup, h.stored, fun u y pc' hu => ?_,
    fun u y head hu => ?_, fun u v y pc' pc'' hu hv => ?_⟩
  · obtain ⟨pc'', hu⟩ := hself u y pc' hu
    exact h.pushing u y pc'' hu
  · by_cases hut : u = t
    · subst hut
      simp only [Function.update_self, Option.some.injEq, Prod.mk.injEq, PushPc.cas.injEq] at hu
      obtain ⟨rfl, rfl⟩ := hu
      simp
    · have hu' : s.pushing u = some (y, .cas head) := by simpa [hut] using hu
      -- another thread's item is another item
      have hyx : y ≠ x := by
        rintro rfl
        exact hut (h.apart u t y _ _ hu' ht)
      simpa [hyx] using h.linked u y head hu'
  · obtain ⟨_, hu⟩ := hself u y pc' hu
    obtain ⟨_, hv⟩ := hself v y pc'' hv
    exact h.apart u v y _ _ hu hv

omit [DecidableEq I] in
/-- The compare-exchange of `push(x)` succeeds. -/
theorem holds_pushed (h : Holds s content) (ht : s.pushing t = some (x, .cas s.mHead))
    (wasEmpty : Bool) :
    Holds { s with mHead := some x
                   pushing := Function.update s.pushing t none
                   log := .pushed t x wasEmpty :: s.log } (x :: content) := by
  obtain ⟨hinside, hnot⟩ := h.pushing t x _ ht
  have hother : ∀ u y pc, Function.update s.pushing t none u = some (y, pc) →
      u ≠ t ∧ s.pushing u = some (y, pc) := by
    intro u y pc hu
    have hut : u ≠ t := by
      rintro rfl
      simp at hu
    exact ⟨hut, by simpa [hut] using hu⟩
  refine ⟨by rw [h.eq]; rfl, ⟨rfl, ?_⟩, List.nodup_cons.mpr ⟨hnot, h.nodup⟩, fun y hy => ?_,
    fun u y pc hu => ?_, fun u y head hu => ?_, fun u v y pc pc' hu hv => ?_⟩
  · -- whatever happened since the head was read, the item is linked to this head
    show Seg s.next (s.next x) content none
    rw [h.linked t x _ ht]
    exact h.seg
  · rcases List.mem_cons.mp hy with rfl | hy
    · exact hinside
    · exact h.stored y hy
  · obtain ⟨hut, hu'⟩ := hother u y pc hu
    have hyx : y ≠ x := fun hyx => hut (h.apart u t x _ _ (hyx ▸ hu') ht)
    obtain ⟨hy, hmem⟩ := h.pushing u y pc hu'
    exact ⟨hy, by simp [hyx, hmem]⟩
  · exact h.linked u y head (hother u y _ hu).2
  · exact h.apart u v y pc pc' (hother u y pc hu).2 (hother v y pc' hv).2

omit [DecidableEq τ] in
/-- `pop_list` takes everything. -/
theorem holds_popped (h : Holds s content) :
    Holds { s with mHead := none
                   inside := fun x => s.inside x && !(sinceLastPop s.log).contains x
                   log := .popped t s.mHead s.next :: s.log } [] := by
  refine ⟨rfl, rfl, List.nodup_nil, by simp, fun u y pc hu => ?_, h.linked, h.apart⟩
  obtain ⟨hinside, hnot⟩ := h.pushing u y pc hu
  rw [h.eq] at hnot
  exact ⟨by simp [hinside, hnot], by simp⟩

omit [DecidableEq τ] in
/-- The link of an item outside is written. -/
theorem holds_setNext (h : Holds s content) (hx : s.inside x = false) (v : Option I) :
    Holds { s with next := Function.update s.next x v } content := by
  have hnot : x ∉ content := fun hmem => by simp [h.stored x hmem] at hx
  refine ⟨h.eq, h.seg.frame hnot v, h.nodup, h.stored, h.pushing, fun u y head hu => ?_, h.apart⟩
  have hyx : y ≠ x := by
    rintro rfl
    simp [(h.pushing u y _ hu).1] at hx
  simpa [hyx] using h.linked u y head hu

/-- A step is invisible, or takes effect as one call of the stack. -/
theorem holds_step (h : Holds s content) {l : Label τ I} (hstep : step s l = some s') :
    (s'.log = s.log ∧ Holds s' content) ∨
      ∃ e content', s'.log = e :: s.log ∧ (stack τ I).step content e content' ∧
        Holds s' content' := by
  cases l with
  | push t x =>
      simp only [step] at hstep
      split at hstep
      next hcall =>
        injection hstep with hstep
        subst hstep
        exact .inl ⟨rfl, holds_call h hcall.2.1⟩
      next => cases hstep
  | run t spurious =>
      simp only [step] at hstep
      split at hstep
      next x pc ht =>
        injection hstep with hstep
        subst hstep
        cases pc with
        | load => exact .inl ⟨rfl, holds_link h ht⟩
        | cas head =>
            simp only [push]
            split
            next hcas =>
              obtain ⟨rfl, -⟩ := hcas
              refine .inr ⟨.pushed t x s.mHead.isNone, x :: content, rfl,
                ⟨(h.pushing t x _ ht).2, ?_, rfl⟩, holds_pushed h ht _⟩
              have hseg := h.seg
              rw [Option.isNone_iff_eq_none]
              constructor
              · intro hnull
                rw [hnull] at hseg
                exact hseg.eq_nil.1
              · rintro rfl
                exact hseg
            next =>
              -- the head it found is the one it will expect
              exact .inl ⟨rfl, holds_link h ht⟩
      next => cases hstep
  | popList t =>
      simp only [step] at hstep
      split at hstep
      next =>
        injection hstep with hstep
        subst hstep
        exact .inr ⟨_, [], rfl, ⟨h.nodup, h.seg, rfl⟩, holds_popped h⟩
      next => cases hstep
  | setNext x v =>
      simp only [step] at hstep
      split at hstep
      next hx =>
        injection hstep with hstep
        subst hstep
        exact .inl ⟨rfl, holds_setNext h hx v⟩
      next => cases hstep

/-! ## §4. Linearizability. -/

/-- **`LockFreeStack` is linearizable.**  In every reachable state the calls
have taken effect as the calls of a stack whose content is the items pushed
since the last pop, newest first, and that is what the memory holds. -/
theorem linearizable (s : State τ I) (h : (machine τ I).Reachable s) :
    (stack τ I).Legal s.log (sinceLastPop s.log) ∧
      Seg s.next s.mHead (sinceLastPop s.log) none := by
  obtain ⟨content, hlegal, hholds⟩ := h.legal (O := stack τ I) (L := State.log) (R := Holds)
    (by rintro s rfl; exact ⟨rfl, holds_initial⟩)
    (fun s l s' content hs _ hstep => holds_step hs hstep)
  obtain rfl := legal_content hlegal
  exact ⟨hlegal, hholds.seg⟩

/-- While `push(2)` of one thread expects the head 0, the other one pops 0 and
pushes 1 and 0 again. -/
def popAndPushAgain : List (Label Bool ℕ) :=
  [.push false 0, .run false false, .run false false, .push true 2, .run true false,
   .popList false, .push false 1, .run false false, .run false false, .push false 0,
   .run false false, .run false false, .run true false]

theorem linearizable_popAndPushAgain :
    ∃ s : State Bool ℕ, sinceLastPop s.log = [2, 0, 1] ∧
      (stack Bool ℕ).Legal s.log (sinceLastPop s.log) ∧
      Seg s.next s.mHead (sinceLastPop s.log) none := by
  obtain ⟨s, hs, hp⟩ := Machine.exists_reach_of_replay (machine Bool ℕ) popAndPushAgain
    (fun s => sinceLastPop s.log == [2, 0, 1]) rfl (by decide)
  exact ⟨s, by simpa using hp, linearizable s hs⟩

end Stack

end Alterstack
