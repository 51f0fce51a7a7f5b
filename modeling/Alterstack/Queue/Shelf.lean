/-
  Alterstack.Queue.Shelf — `BoundBuffer` and `LockFreeQueue` as lists of lists.

  What the member functions do when nobody else is at work: `Shelf` has the
  four lists of the slots and the two positions modulo the number of slots,
  `Store` adds the three stacks.  The operations are those of the code with
  every list in place of its links.

  Main results:
    * `Shelf.getItem_items`, `Shelf.storeTail_items`, `Shelf.storeList_items` —
      nothing is lost or added, as multisets;
    * `Store.getItem_items`, `Store.getItem_none` — the same for the queue,
      which is empty when it returns nothing.
-/
import Mathlib.Algebra.BigOperators.Group.Finset.Basic
import Mathlib.Algebra.Group.Fin.Basic
import Mathlib.Data.Fintype.Basic
import Mathlib.Data.Multiset.AddSub
import Alterstack.Queue.Code

namespace Alterstack

namespace Queue

variable {I : Type*}

/-! ## §1. Loops over the slots and the stacks. -/

/-- The first number below `n` that qualifies. -/
def scan {n : ℕ} (p : Fin n → Bool) : Option (Fin n) := (List.finRange n).find? p

section Scan

variable {n : ℕ} {j k : Fin n} {p : Fin n → Bool}

theorem scan_spec (h : scan p = some k) : p k = true := List.find?_some h

theorem scan_none (h : scan p = none) (k : Fin n) : p k = false := by
  simpa using List.find?_eq_none.mp h k (List.mem_finRange k)

theorem scan_eq_some (hk : p k = true) (hbefore : ∀ j < k, p j = false) : scan p = some k := by
  refine List.find?_eq_some_iff_getElem.mpr ⟨hk, k.val, by simp, by simp, fun j hj => ?_⟩
  simpa using hbefore ⟨j, by omega⟩ hj

theorem scan_eq_none (h : ∀ k, p k = false) : scan p = none :=
  List.find?_eq_none.mpr fun k _ => by simp [h k]

/-- **A loop.**  `P k` is what holds before round `k`: a round that qualifies
ends the loop, another one leads to the next. -/
theorem scan_loop {p : Fin (n + 1) → Bool} {P : Fin (n + 1) → Prop}
    (hhit : ∀ k, scan p = some k → P k)
    (hmiss : ∀ k : Fin n, p k.castSucc = false → P k.succ → P k.castSucc)
    (hlast : p (Fin.last n) = false → scan p = none → P (Fin.last n)) : P 0 := by
  have hround : ∀ k, (∀ j < k, p j = false) → P k := by
    intro k
    induction k using Fin.reverseInduction with
    | last =>
        intro hbefore
        by_cases hp : p (Fin.last n) = true
        · exact hhit _ (scan_eq_some hp hbefore)
        · have hfalse : p (Fin.last n) = false := by simpa using hp
          refine hlast hfalse (scan_eq_none (fun k => ?_))
          rcases Fin.lt_or_eq_of_le (Fin.le_last k) with hk | rfl
          · exact hbefore k hk
          · exact hfalse
    | cast k ih =>
        intro hbefore
        by_cases hp : p k.castSucc = true
        · exact hhit _ (scan_eq_some hp hbefore)
        · have hfalse : p k.castSucc = false := by simpa using hp
          refine hmiss k hfalse (ih (fun j hj => ?_))
          rcases Fin.lt_or_eq_of_le (Fin.le_castSucc_iff.mpr hj) with hk | rfl
          · exact hbefore j hk
          · exact hfalse
  exact hround 0 (fun j hj => absurd hj (Fin.not_lt_zero j))

end Scan

/-! ## §2. The buffer. -/

/-- The slots' lists, and the positions modulo the number of slots. -/
structure Shelf (I : Type*) where
  get : Fin bufferSize
  put : Fin bufferSize
  lists : Fin bufferSize → List I

namespace Shelf

def setList (A : Shelf I) (i : Fin bufferSize) (l : List I) : Shelf I :=
  { A with lists := Function.update A.lists i l }

/-- `store_in_empty_slot` of the list `l`. -/
def storeEmpty (l : List I) (A : Shelf I) : Option (Shelf I) :=
  (scan fun k => (A.lists (A.put + k)).isEmpty).map fun k =>
    { A.setList (A.put + k) l with put := A.put + k + 1 }

/-- `store_in_occupied_slot`. -/
def storeOccupied (l : List I) (A : Shelf I) : Shelf I :=
  { A.setList A.put (A.lists A.put ++ l) with put := A.put + 1 }

/-- `store_tail` with `n` rounds to go. -/
def storeTail : ℕ → List I → Shelf I → Shelf I
  | 0, l, A => A.storeOccupied l
  | _ + 1, [], A => A
  | n + 1, x :: l, A =>
      match A.storeEmpty [x] with
      | some A' => storeTail n l A'
      | none => A.storeOccupied (x :: l)

/-- `put_items_list`. -/
def storeList (l : List I) (A : Shelf I) : Shelf I := (A.storeEmpty l).getD (A.storeOccupied l)

/-- `put_priority_item`. -/
def putPriority (x : I) (A : Shelf I) : Shelf I := A.setList A.get (x :: A.lists A.get)

/-- The distance from the get position to the first list. -/
def firstFull (A : Shelf I) : Option (Fin bufferSize) :=
  scan fun k => !(A.lists (A.get + k)).isEmpty

/-- `get_item`: the item, `have_more`, and what remains. -/
def getItem (A : Shelf I) : Option (I × Bool × Shelf I) :=
  match A.firstFull with
  | none => none
  | some k =>
      match A.lists (A.get + k) with
      | [] => none
      | x :: tail =>
          let A' := { A.setList (A.get + k) [] with get := A.get + k + 1 }
          if tail = [] then some (x, false, A') else some (x, true, A'.storeTail 3 tail)

/-! ### What the buffer holds. -/

/-- All items, wherever they are. -/
def items (A : Shelf I) : Multiset I := ∑ i, (A.lists i : Multiset I)

theorem mem_items {A : Shelf I} {x : I} : x ∈ A.items ↔ ∃ i, x ∈ A.lists i := by
  simp [items, Multiset.mem_sum]

/-- Replacing one list. -/
theorem setList_items (A : Shelf I) (i : Fin bufferSize) (l : List I) :
    (A.setList i l).items + (A.lists i : Multiset I) = A.items + (l : Multiset I) := by
  have hsplit : ∀ f : Fin bufferSize → List I,
      ∑ j, (f j : Multiset I) = f i + ∑ j ∈ Finset.univ.erase i, (f j : Multiset I) :=
    fun f => (Finset.add_sum_erase _ _ (Finset.mem_univ i)).symm
  have hrest : ∑ j ∈ Finset.univ.erase i, ((A.setList i l).lists j : Multiset I) =
      ∑ j ∈ Finset.univ.erase i, (A.lists j : Multiset I) := by
    refine Finset.sum_congr rfl (fun j hj => ?_)
    simp [setList, (Finset.mem_erase.mp hj).1]
  unfold items
  rw [hsplit (A.setList i l).lists, hsplit A.lists, hrest]
  simp only [setList, Function.update_self]
  rw [add_right_comm, add_comm (A.lists i : Multiset I), add_right_comm,
    add_comm (l : Multiset I), add_right_comm]

theorem storeEmpty_items {A A' : Shelf I} {l : List I} (h : A.storeEmpty l = some A') :
    A'.items = A.items + l := by
  obtain ⟨k, hk, rfl⟩ := Option.map_eq_some_iff.mp h
  have hempty : A.lists (A.put + k) = [] := by simpa using scan_spec hk
  have := A.setList_items (A.put + k) l
  rw [hempty, Multiset.coe_nil, add_zero] at this
  exact this

theorem storeOccupied_items (A : Shelf I) (l : List I) :
    (A.storeOccupied l).items = A.items + l := by
  have := A.setList_items A.put (A.lists A.put ++ l)
  rw [← Multiset.coe_add, add_comm (A.lists A.put : Multiset I), ← add_assoc] at this
  exact add_right_cancel this

theorem storeTail_items : ∀ (n : ℕ) (l : List I) (A : Shelf I),
    (A.storeTail n l).items = A.items + l
  | 0, l, A => storeOccupied_items A l
  | n + 1, [], A => (add_zero _).symm
  | n + 1, x :: l, A => by
      unfold storeTail
      cases h : A.storeEmpty [x] with
      | none => exact storeOccupied_items A (x :: l)
      | some A' =>
          show (A'.storeTail n l).items = A.items + ((x :: l : List I) : Multiset I)
          rw [storeTail_items n l A', storeEmpty_items h, add_assoc, Multiset.coe_add]
          rfl

theorem storeList_items (A : Shelf I) (l : List I) : (A.storeList l).items = A.items + l := by
  unfold storeList
  cases h : A.storeEmpty l with
  | none => exact storeOccupied_items A l
  | some A' => exact storeEmpty_items h

theorem putPriority_items (A : Shelf I) (x : I) : (A.putPriority x).items = x ::ₘ A.items := by
  have := A.setList_items A.get (x :: A.lists A.get)
  rw [← Multiset.cons_coe, Multiset.add_cons, ← Multiset.cons_add] at this
  exact add_right_cancel this

/-- The first list, without its first item, and the shelf it came from. -/
theorem taken_items {A : Shelf I} {i : Fin bufferSize} {x : I} {tail : List I}
    (h : A.lists i = x :: tail) : A.items = x ::ₘ ((A.setList i []).items + tail) := by
  have := A.setList_items i []
  rw [h, Multiset.coe_nil, add_zero, ← Multiset.cons_coe, Multiset.add_cons] at this
  exact this.symm

theorem getItem_items {A A' : Shelf I} {x : I} {more : Bool}
    (h : A.getItem = some (x, more, A')) :
    A.items = x ::ₘ A'.items ∧ (more = true → A'.items ≠ 0) := by
  unfold getItem at h
  cases hfull : A.firstFull with
  | none =>
      rw [hfull] at h
      cases h
  | some k =>
      simp only [hfull] at h
      cases hlist : A.lists (A.get + k) with
      | nil =>
          rw [hlist] at h
          cases h
      | cons y tail =>
          simp only [hlist] at h
          have htaken := taken_items hlist
          split at h
          -- a single item leaves its slot empty
          next htail =>
            obtain ⟨rfl, rfl, rfl⟩ := by simpa using h
            subst htail
            rw [Multiset.coe_nil, add_zero] at htaken
            exact ⟨htaken, nofun⟩
          next htail =>
            obtain ⟨rfl, rfl, rfl⟩ := by simpa using h
            rw [storeTail_items]
            refine ⟨htaken, fun _ hnil => ?_⟩
            obtain ⟨z, hz⟩ := List.exists_mem_of_ne_nil tail htail
            rw [Multiset.eq_zero_iff_forall_notMem] at hnil
            exact hnil z (Multiset.mem_add.mpr (.inr hz))

theorem getItem_none {A : Shelf I} : A.getItem = none ↔ A.items = 0 := by
  constructor
  · intro h
    have hfull : A.firstFull = none := by
      cases hfull : A.firstFull with
      | none => rfl
      | some k =>
          have hk := scan_spec hfull
          simp only [getItem, hfull] at h
          cases hlist : A.lists (A.get + k) with
          | nil => simp [hlist] at hk
          | cons x tail =>
              simp only [hlist] at h
              split at h <;> cases h
    refine Multiset.eq_zero_of_forall_notMem (fun x hx => ?_)
    -- slot `i` is one of those the scan looked at
    obtain ⟨i, hi⟩ := mem_items.mp hx
    have := scan_none hfull (i - A.get)
    rw [add_sub_cancel] at this
    have hnil : A.lists i = [] := by simpa using this
    rw [hnil] at hi
    cases hi
  · intro h
    cases hget : A.getItem with
    | none => rfl
    | some r =>
        obtain ⟨x, more, A'⟩ := r
        have := (getItem_items hget).1
        rw [h] at this
        exact absurd this.symm (Multiset.cons_ne_zero)

end Shelf

/-! ## §3. The queue. -/

/-- The buffer and the three stacks. -/
structure Store (I : Type*) where
  itemBuffer : Shelf I
  prioQueue : Fin queueCount → List I

namespace Store

theorem level_lt (prio : UInt32) :
    ((if prio ≥ 3 then 3 else prio).toNat - 1) % queueCount < queueCount :=
  Nat.mod_lt _ (by decide)

/-- The stack of a priority other than 0. -/
def level (prio : UInt32) : Fin queueCount :=
  ⟨((if prio ≥ 3 then 3 else prio).toNat - 1) % queueCount, level_lt prio⟩

def setStack (q : Store I) (i : Fin queueCount) (l : List I) : Store I :=
  { q with prioQueue := Function.update q.prioQueue i l }

def putItem (x : I) (prio : UInt32) (q : Store I) : Store I :=
  if prio = 0 then { q with itemBuffer := q.itemBuffer.putPriority x }
  else q.setStack (level prio) (x :: q.prioQueue (level prio))

/-- The first stack that is not empty. -/
def firstStack (q : Store I) : Option (Fin queueCount) :=
  scan fun i => !(q.prioQueue i).isEmpty

/-- A stack is taken as a whole, and its rest goes into the buffer. -/
def popStack (q : Store I) (i : Fin queueCount) : Option (I × Bool × Store I) :=
  match q.prioQueue i with
  | [] => none
  | x :: rest =>
      let q' := q.setStack i []
      if rest = [] then some (x, false, q')
      else some (x, true, { q' with itemBuffer := q'.itemBuffer.storeList rest })

def getItem (q : Store I) : Option (I × Bool × Store I) :=
  match q.itemBuffer.getItem with
  | some (x, more, A) => some (x, more, { q with itemBuffer := A })
  | none => q.firstStack.bind q.popStack

/-! ### What the queue holds. -/

def items (q : Store I) : Multiset I := q.itemBuffer.items + ∑ i, (q.prioQueue i : Multiset I)

theorem mem_items {q : Store I} {x : I} :
    x ∈ q.items ↔ x ∈ q.itemBuffer.items ∨ ∃ i, x ∈ q.prioQueue i := by
  simp [items, Multiset.mem_sum]

theorem setStack_items (q : Store I) (i : Fin queueCount) (l : List I) :
    (q.setStack i l).items + (q.prioQueue i : Multiset I) = q.items + (l : Multiset I) := by
  have hsplit : ∀ f : Fin queueCount → List I,
      ∑ j, (f j : Multiset I) = f i + ∑ j ∈ Finset.univ.erase i, (f j : Multiset I) :=
    fun f => (Finset.add_sum_erase _ _ (Finset.mem_univ i)).symm
  have hrest : ∑ j ∈ Finset.univ.erase i, ((q.setStack i l).prioQueue j : Multiset I) =
      ∑ j ∈ Finset.univ.erase i, (q.prioQueue j : Multiset I) := by
    refine Finset.sum_congr rfl (fun j hj => ?_)
    simp [setStack, (Finset.mem_erase.mp hj).1]
  unfold items
  rw [hsplit (q.setStack i l).prioQueue, hsplit q.prioQueue, hrest]
  simp only [setStack, Function.update_self]
  ac_rfl

theorem push_items (x : I) (i : Fin queueCount) (q : Store I) :
    (q.setStack i (x :: q.prioQueue i)).items = x ::ₘ q.items := by
  have := q.setStack_items i (x :: q.prioQueue i)
  rw [← Multiset.cons_coe, Multiset.add_cons, ← Multiset.cons_add] at this
  exact add_right_cancel this

theorem putItem_items (x : I) (prio : UInt32) (q : Store I) :
    (q.putItem x prio).items = x ::ₘ q.items := by
  unfold putItem
  split
  · unfold items
    rw [Shelf.putPriority_items, Multiset.cons_add]
  · exact push_items x (level prio) q

theorem firstStack_spec {q : Store I} {i : Fin queueCount} (h : q.firstStack = some i) :
    q.prioQueue i ≠ [] := by
  simpa using scan_spec h

theorem firstStack_none {q : Store I} (h : q.firstStack = none) (i : Fin queueCount) :
    q.prioQueue i = [] := by
  simpa using scan_none h i

theorem popStack_items {q q' : Store I} {i : Fin queueCount} {x : I} {more : Bool}
    (h : q.popStack i = some (x, more, q')) :
    q.items = x ::ₘ q'.items ∧ (more = true → q'.items ≠ 0) := by
  unfold popStack at h
  cases hstack : q.prioQueue i with
  | nil =>
      rw [hstack] at h
      cases h
  | cons y rest =>
      simp only [hstack] at h
      have htaken := q.setStack_items i []
      rw [hstack, Multiset.coe_nil, add_zero, ← Multiset.cons_coe, Multiset.add_cons] at htaken
      split at h
      next hrest =>
        obtain ⟨rfl, rfl, rfl⟩ := by simpa using h
        subst hrest
        rw [Multiset.coe_nil, add_zero] at htaken
        exact ⟨htaken.symm, nofun⟩
      next hrest =>
        obtain ⟨rfl, rfl, rfl⟩ := by simpa using h
        have hitems : ({ q.setStack i [] with
            itemBuffer := (q.setStack i []).itemBuffer.storeList rest } : Store I).items =
              (q.setStack i []).items + rest := by
          unfold items
          rw [Shelf.storeList_items]
          ac_rfl
        rw [hitems, ← htaken]
        refine ⟨rfl, fun _ hnil => ?_⟩
        obtain ⟨z, hz⟩ := List.exists_mem_of_ne_nil rest hrest
        rw [Multiset.eq_zero_iff_forall_notMem] at hnil
        exact hnil z (Multiset.mem_add.mpr (.inr hz))

/-- Where the item comes from: the buffer, or a stack when the buffer is empty,
whose rest goes to the buffer. -/
theorem getItem_cases {q q' : Store I} {x : I} {more : Bool}
    (h : q.getItem = some (x, more, q')) :
    (∃ A, q.itemBuffer.getItem = some (x, more, A) ∧ q' = { q with itemBuffer := A }) ∨
      q.itemBuffer.items = 0 ∧ ∃ i rest, q.firstStack = some i ∧ q.prioQueue i = x :: rest ∧
        q'.prioQueue = Function.update q.prioQueue i [] ∧ q'.itemBuffer.items = rest := by
  unfold getItem at h
  cases hget : q.itemBuffer.getItem with
  | some r =>
      obtain ⟨y, m, A⟩ := r
      rw [hget] at h
      obtain ⟨rfl, rfl, rfl⟩ := by simpa using h
      exact .inl ⟨A, rfl, rfl⟩
  | none =>
      rw [hget] at h
      obtain ⟨i, hfirst, hpop⟩ := Option.bind_eq_some_iff.mp h
      have hempty : q.itemBuffer.items = 0 := Shelf.getItem_none.mp hget
      refine .inr ⟨hempty, i, ?_⟩
      unfold popStack at hpop
      cases hstack : q.prioQueue i with
      | nil =>
          rw [hstack] at hpop
          cases hpop
      | cons y rest =>
          simp only [hstack] at hpop
          split at hpop
          next hrest =>
            obtain ⟨rfl, rfl, rfl⟩ := by simpa using hpop
            refine ⟨rest, hfirst, rfl, rfl, ?_⟩
            rw [hrest]
            exact hempty
          next =>
            obtain ⟨rfl, rfl, rfl⟩ := by simpa using hpop
            refine ⟨rest, hfirst, rfl, rfl, ?_⟩
            show (q.itemBuffer.storeList rest).items = rest
            rw [Shelf.storeList_items, hempty, zero_add]

/-- **One item leaves, the others stay**, and `have_more` is not set when none
is left. -/
theorem getItem_items {q q' : Store I} {x : I} {more : Bool}
    (h : q.getItem = some (x, more, q')) :
    q.items = x ::ₘ q'.items ∧ (more = true → q'.items ≠ 0) := by
  unfold getItem at h
  cases hget : q.itemBuffer.getItem with
  | some r =>
      obtain ⟨y, m, A⟩ := r
      rw [hget] at h
      obtain ⟨rfl, rfl, rfl⟩ := by simpa using h
      obtain ⟨hitems, hmore⟩ := Shelf.getItem_items hget
      refine ⟨?_, fun htrue hnil => hmore htrue ?_⟩
      · unfold items
        rw [hitems, Multiset.cons_add]
      · refine Multiset.eq_zero_of_forall_notMem (fun z hz => ?_)
        rw [Multiset.eq_zero_iff_forall_notMem] at hnil
        exact hnil z (mem_items.mpr (.inl hz))
  | none =>
      rw [hget] at h
      obtain ⟨i, -, hpop⟩ := Option.bind_eq_some_iff.mp h
      exact popStack_items hpop

/-- Nothing is returned exactly when there is nothing. -/
theorem getItem_none {q : Store I} : q.getItem = none ↔ q.items = 0 := by
  constructor
  · intro h
    unfold getItem at h
    cases hget : q.itemBuffer.getItem with
    | some r =>
        rw [hget] at h
        cases h
    | none =>
        rw [hget] at h
        have hstacks : ∀ i, q.prioQueue i = [] := by
          cases hfirst : q.firstStack with
          | none => exact firstStack_none hfirst
          | some i =>
              simp only [hfirst, Option.bind_some, popStack] at h
              cases hi : q.prioQueue i with
              | nil => exact absurd hi (firstStack_spec hfirst)
              | cons x rest =>
                  simp only [hi] at h
                  split at h <;> cases h
        refine Multiset.eq_zero_of_forall_notMem (fun x hx => ?_)
        rcases mem_items.mp hx with hx | ⟨i, hi⟩
        · rw [Shelf.getItem_none.mp hget] at hx
          exact Multiset.notMem_zero x hx
        · rw [hstacks i] at hi
          cases hi
  · intro h
    cases hget : q.getItem with
    | none => rfl
    | some r =>
        obtain ⟨x, more, q'⟩ := r
        have := (getItem_items hget).1
        rw [h] at this
        exact absurd this.symm Multiset.cons_ne_zero

end Store

end Queue

end Alterstack
