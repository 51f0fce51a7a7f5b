/-
  Alterstack.Queue.Alone — a call that runs alone does what it does to lists.

  `BoundBuffer.Holds` ties the memory to a `Shelf`: the links of every slot
  spell its list, and the nodes `own` are out, in the hands of the running
  call.  The `returns` lemmas follow the code point by point; each says that
  the rest of the call returns with the memory of the corresponding operation
  of `Shelf`, if what the caller does then returns as it should.

  Main results:
    * `BoundBuffer.getLoad_returns`, `emptyLoad_returns`,
      `occupiedAdd_returns`, `prioLoad_returns` — the member functions;
    * `LockFreeQueue.getItem_returns`, `LockFreeQueue.putItem_returns` — the
      two operations of the queue.
-/
import Mathlib.Data.Multiset.UnionInter
import Alterstack.Lib.Program
import Alterstack.Lib.Segment
import Alterstack.Queue.Shelf

namespace Alterstack

namespace Queue

open Lib (Seg seg_nil Program)

namespace BoundBuffer

variable {I : Type*} {b : BoundBuffer I} {next old : I → Option I} {A : Shelf I}
  {own own' l : List I} {x : I}

/-! ## §1. The memory of a shelf. -/

/-- The memory holds the shelf `A`, the call holds the nodes `own`; links of
other nodes are as in `old`. -/
structure Holds (b : BoundBuffer I) (next old : I → Option I) (A : Shelf I) (own : List I) :
    Prop where
  get : slot b.getPosition = A.get
  put : slot b.putPosition = A.put
  seg : ∀ i, Seg next (b.buffer i) (A.lists i) none
  nodup : (A.items + (own : Multiset I)).Nodup
  outside : ∀ y, y ∉ A.items + (own : Multiset I) → next y = old y

theorem slot_add (p q : UInt32) : slot (p + q) = slot p + slot q := by
  refine Fin.ext ?_
  show (p + q).toNat % 4 = (p.toNat % 4 + q.toNat % 4) % 4
  rw [UInt32.toNat_add]
  omega

theorem slot_succ (p i : UInt32) : slot (p + (i + 1)) = slot p + slot i + 1 := by
  rw [slot_add, slot_add, add_assoc]
  rfl

/-- The order of the call's nodes does not matter. -/
theorem Holds.perm (h : Holds b next old A own) (hp : own.Perm own') :
    Holds b next old A own' := by
  have hown : (own : Multiset I) = (own' : Multiset I) := Multiset.coe_eq_coe.mpr hp
  exact ⟨h.get, h.put, h.seg, hown ▸ h.nodup, hown ▸ h.outside⟩

theorem Holds.not_mem (h : Holds b next old A own) (hx : x ∈ own) (i : Fin bufferSize) :
    x ∉ A.lists i := fun hi =>
  Multiset.disjoint_left.mp (Multiset.nodup_add.mp h.nodup).2.2 (Shelf.mem_items.mpr ⟨i, hi⟩)
    (by simpa using hx)

theorem Holds.own_nodup (h : Holds b next old A own) : own.Nodup :=
  Multiset.coe_nodup.mp (Multiset.nodup_add.mp h.nodup).2.1

/-- The call writes the link of a node it holds. -/
theorem Holds.write [DecidableEq I] (h : Holds b next old A own) (hx : x ∈ own) (v : Option I) :
    Holds b (Function.update next x v) old A own := by
  refine ⟨h.get, h.put, fun i => (h.seg i).frame (h.not_mem hx i) v, h.nodup, fun y hy => ?_⟩
  have hyx : y ≠ x := by
    rintro rfl
    exact hy (Multiset.mem_add.mpr (.inr (by simpa using hx)))
  rw [Function.update_of_ne hyx]
  exact h.outside y hy

/-- One slot gets another list; nodes pass between the buffer and the call. -/
theorem Holds.trade (h : Holds b next old A own) {i : Fin bufferSize} {v : Option I}
    (hs : Seg next v l none)
    (hitems : (A.setList i l).items + (own' : Multiset I) = A.items + (own : Multiset I)) :
    Holds (b.setSlot i v) next old (A.setList i l) own' := by
  refine ⟨h.get, h.put, fun j => ?_, hitems ▸ h.nodup, fun y hy => h.outside y (hitems ▸ hy)⟩
  by_cases hj : j = i
  · subst hj
    simpa [setSlot, Shelf.setList] using hs
  · simpa [setSlot, Shelf.setList, hj] using h.seg j

/-- The list of a slot is exchanged for nodes of the call. -/
theorem Holds.exchange (h : Holds b next old A (l ++ own)) {i : Fin bufferSize} {v : Option I}
    (hs : Seg next v l none) :
    Holds (b.setSlot i v) next old (A.setList i l) (A.lists i ++ own) := by
  refine h.trade hs ?_
  rw [← Multiset.coe_add, ← Multiset.coe_add, ← add_assoc, ← add_assoc, A.setList_items i l]

/-- Nodes of the call go in front of the list of a slot. -/
theorem Holds.prepend (h : Holds b next old A (l ++ own)) {i : Fin bufferSize} {v : Option I}
    (hs : Seg next v (l ++ A.lists i) none) :
    Holds (b.setSlot i v) next old (A.setList i (l ++ A.lists i)) own := by
  have hitems := A.setList_items i (l ++ A.lists i)
  rw [← Multiset.coe_add, ← add_assoc] at hitems
  refine h.trade hs ?_
  rw [add_right_cancel hitems, ← Multiset.coe_add, add_assoc]

/-- The positions move. -/
theorem Holds.move (h : Holds b next old A own) {g p : UInt32} {g' p' : Fin bufferSize}
    (hg : slot g = g') (hp : slot p = p') :
    Holds { b with getPosition := g, putPosition := p } next old
      { A with get := g', put := p' } own :=
  ⟨hg, hp, h.seg, h.nodup, h.outside⟩

/-- A slot is empty when its list is. -/
theorem Holds.buffer_none (h : Holds b next old A own) {i : Fin bufferSize} :
    b.buffer i = none ↔ A.lists i = [] := by
  have hseg := h.seg i
  constructor
  · intro hb
    rw [hb] at hseg
    exact hseg.eq_nil.1
  · intro hl
    rw [hl] at hseg
    exact hseg

theorem Holds.buffer_some (h : Holds b next old A own) {i : Fin bufferSize} {tail : List I}
    (hl : A.lists i = x :: tail) : b.buffer i = some x ∧ Seg next (next x) tail none := by
  have hseg := h.seg i
  rw [hl] at hseg
  exact hseg

theorem setSlot_eq_self {i : Fin bufferSize} {v : Option I} (hb : b.buffer i = v) :
    b.setSlot i v = b := by
  unfold setSlot
  rw [← hb, Function.update_eq_self]

/-- The counter of the round at distance `k`. -/
def round (k : Fin bufferSize) : UInt32 := UInt32.ofNat k.val

@[simp] theorem slot_round (k : Fin bufferSize) : slot (round k) = k := by decide +revert

theorem round_succ (k : Fin 3) :
    round k.castSucc + 1 = round k.succ ∧ round k.castSucc + 1 < 4 := by decide +revert

/-! ## §2. The buffer as a program. -/

variable [DecidableEq I]

/-- The memory of a buffer: its atomics, and the links of the items. -/
abbrev Memory (I : Type*) := BoundBuffer I × (I → Option I)

def Next.toSum : Next I → Pc I ⊕ (Option I × Bool)
  | .goto pc => .inl pc
  | .ret item haveMore => .inr (item, haveMore)

/-- The member functions of `BoundBuffer`. -/
def program (I : Type*) [DecidableEq I] : Program (Memory I) (Pc I) (Option I × Bool) where
  step spurious m pc :=
    let r := step spurious m.1 m.2 pc
    ((r.1, r.2.1), r.2.2.toSum)

theorem program_goto {flag : Bool} {m m' : Memory I} {pc pc' : Pc I}
    (h : (program I).step flag m pc = (m', .inl pc')) :
    m' = ((step flag m.1 m.2 pc).1, (step flag m.1 m.2 pc).2.1) ∧
      (step flag m.1 m.2 pc).2.2 = .goto pc' := by
  simp only [program, Prod.mk.injEq] at h
  obtain ⟨rfl, hsum⟩ := h
  refine ⟨rfl, ?_⟩
  cases hr : (step flag m.1 m.2 pc).2.2 with
  | goto pc'' =>
      rw [hr] at hsum
      cases hsum
      rfl
  | ret item more =>
      rw [hr] at hsum
      cases hsum

theorem program_ret {flag : Bool} {m m' : Memory I} {pc : Pc I} {r : Option I × Bool}
    (h : (program I).step flag m pc = (m', .inr r)) :
    m' = ((step flag m.1 m.2 pc).1, (step flag m.1 m.2 pc).2.1) ∧
      (step flag m.1 m.2 pc).2.2 = .ret r.1 r.2 := by
  simp only [program, Prod.mk.injEq] at h
  obtain ⟨rfl, hsum⟩ := h
  refine ⟨rfl, ?_⟩
  cases hr : (step flag m.1 m.2 pc).2.2 with
  | goto pc' =>
      rw [hr] at hsum
      cases hsum
  | ret item more =>
      rw [hr] at hsum
      cases hsum
      rfl

/-- After a step with this result, the rest of the call returns as `Q` says. -/
def Leads (Q : Memory I → Option I × Bool → Prop) (r : Result I) : Prop :=
  (program I).Continues Q (r.1, r.2.1) r.2.2.toSum

variable {Q : Memory I → Option I × Bool → Prop} {pc : Pc I}

/-- A step without a weak compare-exchange. -/
theorem returns_of_step (hsame : step true b next pc = step false b next pc)
    (h : Leads Q (step false b next pc)) : (program I).Returns Q (b, next) pc := by
  refine .intro (.inl ?_) h
  simp only [program, hsame]

/-- A compare-exchange that may fail and find the same again. -/
theorem returns_of_cas (hretry : step true b next pc = (b, next, .goto pc))
    (h : Leads Q (step false b next pc)) : (program I).Returns Q (b, next) pc := by
  refine .intro (.inr ?_) h
  simp only [program, hretry]
  rfl

/-! ## §3. `store_in_empty_slot`. -/

variable {caller : Caller I} {node : I}

/-- A round that finds its slot occupied. -/
theorem emptyCas_occupied (h : Holds b next old A own) {k : Fin bufferSize}
    (hfull : A.lists (A.put + k) ≠ [])
    (hnext : Leads Q (if round k + 1 < 4 then
        (b, next, .goto (.emptyCas caller node b.putPosition (round k + 1)))
      else emptyFailed b next node caller)) :
    (program I).Returns Q (b, next) (.emptyCas caller node b.putPosition (round k)) := by
  have hslot : b.buffer (slot (b.putPosition + round k)) ≠ none := by
    rw [slot_add, h.put, slot_round, Ne, h.buffer_none]
    exact hfull
  refine returns_of_step rfl ?_
  simp only [step, if_neg hslot]
  refine returns_of_step rfl ?_
  simpa only [step, ne_eq, not_true, if_false] using hnext

/-- A round that finds its slot empty and puts the list there. -/
theorem emptyCas_empty (h : Holds b next old A (l ++ own)) (hl : Seg next (some node) l none)
    {k : Fin bufferSize} (hempty : A.lists (A.put + k) = [])
    (hstored : ∀ b', Holds b' next old { A.setList (A.put + k) l with put := A.put + k + 1 } own →
      Leads Q (emptyStored b' next caller)) :
    (program I).Returns Q (b, next) (.emptyCas caller node b.putPosition (round k)) := by
  have hindex : slot (b.putPosition + round k) = A.put + k := by
    rw [slot_add, h.put, slot_round]
  have hslot : b.buffer (A.put + k) = none := h.buffer_none.mpr hempty
  refine returns_of_step rfl ?_
  simp only [step, hindex, if_pos hslot]
  refine returns_of_step rfl (hstored _ ?_)
  have hplaced := h.exchange (i := A.put + k) hl
  rw [hempty, List.nil_append] at hplaced
  refine hplaced.move h.get ?_
  show slot (b.putPosition + (round k + 1)) = _
  rw [slot_succ, h.put, slot_round]

theorem emptyLoad_returns (h : Holds b next old A (l ++ own)) (hl : Seg next (some node) l none)
    (hstored : ∀ b' A', A.storeEmpty l = some A' → Holds b' next old A' own →
      Leads Q (emptyStored b' next caller))
    (hfull : A.storeEmpty l = none → Leads Q (emptyFailed b next node caller)) :
    (program I).Returns Q (b, next) (.emptyLoad caller node) := by
  -- the rounds of the loop are the distances of the scan
  have hrounds : (program I).Returns Q (b, next)
      (.emptyCas caller node b.putPosition (round 0)) := by
    refine scan_loop (p := fun k => (A.lists (A.put + k)).isEmpty)
      (P := fun k => (program I).Returns Q (b, next)
        (.emptyCas caller node b.putPosition (round k))) ?_ ?_ ?_
    · intro k hk
      have hempty : A.lists (A.put + k) = [] := by simpa using scan_spec hk
      refine emptyCas_empty h hl hempty (fun b' hb' => hstored b' _ ?_ hb')
      unfold Shelf.storeEmpty
      rw [hk]
      rfl
    · intro k hk hrest
      have hocc : A.lists (A.put + k.castSucc) ≠ [] := by simpa using hk
      refine emptyCas_occupied h hocc ?_
      rw [if_pos (round_succ k).2, (round_succ k).1]
      exact hrest
    · intro hk hnone
      have hocc : A.lists (A.put + Fin.last 3) ≠ [] := by simpa using hk
      refine emptyCas_occupied h hocc ?_
      rw [if_neg (by decide)]
      refine hfull ?_
      unfold Shelf.storeEmpty
      rw [hnone]
      rfl
  exact returns_of_step rfl hrounds

/-! ## §4. `store_in_occupied_slot`. -/

variable {ret : Option I}

/-- The walk of `find_last_item_in_list` over the old list, and the exchange
that puts it back in front of the new one. -/
theorem occupiedFind_returns (ret : Option I) {i : Fin bufferSize} {index : UInt32} {first last : I}
    {front back : List I} (h : Holds b next old A (front ++ last :: back ++ own))
    (hindex : slot index = i) (hfront : Seg next (some first) front (some last))
    (hback : Seg next (next last) back none)
    (hstored : ∀ b' next', Holds b' next' old
      (A.setList i (front ++ last :: back ++ A.lists i)) own →
      Leads Q (occupiedStored b' next' ret)) :
    (program I).Returns Q (b, next) (.occupiedFind ret (b.buffer i) index first last) := by
  induction back generalizing front last with
  | nil =>
      have hlast : next last = none := hback
      have hlink := h.write (x := last) (by simp) (b.buffer i)
      have hmem : last ∉ front := by
        have := h.own_nodup
        simp only [List.append_assoc, List.nodup_append, List.mem_append, List.mem_cons] at this
        exact fun hmem => this.2.2 _ hmem _ (.inl (.inl rfl)) rfl
      -- the last node of the old list now leads to the new one
      have hseg : Seg (Function.update next last (b.buffer i)) (some first)
          (front ++ [last] ++ A.lists i) none := by
        have hold : Seg next (some first) (front ++ [last]) none := hfront.append ⟨rfl, hlast⟩
        exact (hold.relink_last hmem).append (hlink.seg i)
      refine returns_of_step (by simp only [step, hlast]) ?_
      simp only [step, hlast]
      refine returns_of_cas ?_ ?_
      · simp [step, hindex]
      · simp only [step, hindex, and_self, if_true]
        exact hstored _ _ (hlink.prepend hseg)
  | cons y back ih =>
      obtain ⟨hy, hrest⟩ := hback
      have happ : front ++ last :: y :: back = front ++ [last] ++ y :: back := by simp
      refine returns_of_step (by simp only [step, hy]) ?_
      simp only [step, hy]
      rw [happ] at h hstored
      exact ih h (hfront.append ⟨rfl, hy⟩) hrest hstored

theorem occupiedAdd_returns {itemsList : Option I} (h : Holds b next old A (l ++ own))
    (hl : Seg next itemsList l none)
    (hstored : ∀ b' next', Holds b' next' old (A.storeOccupied l) own →
      Leads Q (occupiedStored b' next' ret)) :
    (program I).Returns Q (b, next) (.occupiedAdd ret itemsList) := by
  have hindex : slot b.putPosition = A.put := h.put
  have hmoved : Holds { b with putPosition := b.putPosition + 1 } next old
      { A with put := A.put + 1 } (l ++ own) := by
    refine h.move h.get ?_
    rw [slot_add, h.put]
    rfl
  have hplaced := hmoved.exchange (i := A.put) hl
  have hstore : A.storeOccupied l =
      { A with put := A.put + 1 }.setList A.put (A.lists A.put ++ l) := rfl
  refine returns_of_step rfl (returns_of_step rfl ?_)
  cases hold : A.lists A.put with
  -- the slot was empty: one exchange is enough
  | nil =>
      have hbuf : b.buffer A.put = none := h.buffer_none.mpr hold
      simp only [step, hindex, hbuf]
      refine hstored _ _ ?_
      rw [hstore, hold]
      simpa [hold] using hplaced
  -- the list that was in the slot goes back in front of the new one, which takes
  -- the walk to its last node and a second exchange
  | cons first back =>
      obtain ⟨hbuf, htail⟩ := h.buffer_some hold
      rw [hold] at hplaced
      have htwice : ({ A with put := A.put + 1 }.setList A.put l).setList A.put
          (first :: back ++ ({ A with put := A.put + 1 }.setList A.put l).lists A.put) =
          A.storeOccupied l := by
        simp [hstore, hold, Shelf.setList]
      have hfront : Seg next (some first) [] (some first) := rfl
      have hfind := occupiedFind_returns (Q := Q) ret hplaced hindex hfront htail
        (fun b' next' h' => hstored b' next' (htwice ▸ h'))
      simp only [setSlot, Function.update_self] at hfind
      simp only [step, hindex, hbuf]
      exact hfind

/-! ## §5. `store_tail`. -/

/-- `get_item` returns `item` and leaves the shelf `A`. -/
def Got (old : I → Option I) (A : Shelf I) (item : I) (more : Bool) (m : Memory I)
    (r : Option I × Bool) : Prop :=
  r = (some item, more) ∧ m.2 item = none ∧ Holds m.1 m.2 old A [item]

variable {item : I}

theorem finishGet_leads {Q : Memory I → Option I × Bool → Prop} (h : Holds b next old A [item])
    (hQ : ∀ m r, Got old A item true m r → Q m r) : Leads Q (finishGet b next item) := by
  have hnull : Function.update next item none item = none := by simp
  exact hQ _ _ ⟨rfl, hnull, h.write (by simp) none⟩

/-- The loop, with `n` rounds to go. -/
theorem storeTail_leads {n : ℕ} {i : UInt32} {itemsList : Option I} (hi : i.toNat + n = 3)
    (h : Holds b next old A (l ++ [item])) (hl : Seg next itemsList l none)
    (hQ : ∀ m r, Got old (A.storeTail n l) item true m r → Q m r) :
    Leads Q (storeTail b next item i itemsList) := by
  induction n generalizing i itemsList b next l A with
  | zero =>
      have hdone : ¬ i < 3 := by
        show ¬ i.toNat < 3
        omega
      unfold storeTail
      rw [if_neg hdone]
      exact occupiedAdd_returns h hl (fun b' next' h' => finishGet_leads h' hQ)
  | succ n ih =>
      have hlt : i < 3 := by
        show i.toNat < 3
        omega
      have hsucc : (i + 1).toNat + n = 3 := by
        rw [UInt32.toNat_add]
        show (i.toNat + 1) % 2 ^ 32 + n = 3
        omega
      unfold storeTail
      rw [if_pos hlt]
      cases l with
      | nil =>
          rw [seg_nil] at hl
          subst hl
          exact finishGet_leads h hQ
      | cons x l =>
          obtain ⟨rfl, hrest⟩ := hl
          have hx : x ∉ l := by
            have := h.own_nodup
            simp only [List.cons_append, List.nodup_cons, List.mem_append] at this
            exact fun hmem => this.1 (.inl hmem)
          -- the node is cut off, and tried alone
          have hcut := h.write (x := x) (by simp) none
          have hsingle : Seg (Function.update next x none) (some x) [x] none := by simp
          refine emptyLoad_returns (l := [x]) hcut hsingle (fun b' A' hA' h' => ?_) (fun hA' => ?_)
          · have hstep : A.storeTail (n + 1) (x :: l) = A'.storeTail n l := by
              simp only [Shelf.storeTail, hA']
            exact ih hsucc h' (hrest.frame hx none) (hstep ▸ hQ)
          · have hstep : A.storeTail (n + 1) (x :: l) = A.storeOccupied (x :: l) := by
              simp only [Shelf.storeTail, hA']
            -- no room: the whole rest goes to an occupied slot, linked as before
            have hback : Function.update (Function.update next x none) x (next x) = next := by
              simp
            show (program I).Returns Q (b, Function.update (Function.update next x none) x (next x))
              (.occupiedAdd (some item) (some x))
            rw [hback]
            refine occupiedAdd_returns h ⟨rfl, hrest⟩ (fun b' next' h' => ?_)
            exact finishGet_leads h' (hstep ▸ hQ)

/-! ## §6. `get_item`, `put_items_list` and `put_priority_item`. -/

/-- A round that finds its slot empty. -/
theorem getExchange_empty (h : Holds b next old A own) {k : Fin bufferSize}
    (hempty : A.lists (A.get + k) = [])
    (hnext : Leads Q (b, next,
      if round k + 1 < 4 then .goto (.getExchange b.getPosition (round k + 1))
      else .ret none false)) :
    (program I).Returns Q (b, next) (.getExchange b.getPosition (round k)) := by
  have hindex : slot (b.getPosition + round k) = A.get + k := by
    rw [slot_add, h.get, slot_round]
  have hbuf : b.buffer (A.get + k) = none := h.buffer_none.mpr hempty
  refine returns_of_step rfl ?_
  simp only [step, hindex, hbuf, setSlot_eq_self hbuf]
  refine returns_of_step rfl ?_
  simpa only [step, ne_eq, not_true, if_false] using hnext

/-- The round that finds a list. -/
theorem getExchange_found (h : Holds b next old A []) {k : Fin bufferSize} {tail : List I}
    (hlist : A.lists (A.get + k) = x :: tail)
    (hlast : tail = [] → ∀ m r,
      Got old { A.setList (A.get + k) [] with get := A.get + k + 1 } x false m r → Q m r)
    (hmore : tail ≠ [] → ∀ m r,
      Got old (Shelf.storeTail 3 tail { A.setList (A.get + k) [] with get := A.get + k + 1 })
        x true m r → Q m r) :
    (program I).Returns Q (b, next) (.getExchange b.getPosition (round k)) := by
  have hindex : slot (b.getPosition + round k) = A.get + k := by
    rw [slot_add, h.get, slot_round]
  obtain ⟨hbuf, htail⟩ := h.buffer_some hlist
  have htaken : Holds { b.setSlot (A.get + k) none with
        getPosition := b.getPosition + (round k + 1) } next old
      { A.setList (A.get + k) [] with get := A.get + k + 1 } (tail ++ [x]) := by
    have hout := h.exchange (l := []) (i := A.get + k) (v := none) rfl
    rw [hlist, List.append_nil] at hout
    refine (hout.perm (List.perm_append_singleton x tail).symm).move ?_ h.put
    rw [slot_succ, h.get, slot_round]
  refine returns_of_step rfl ?_
  simp only [step, hindex, hbuf]
  refine returns_of_step rfl ?_
  cases tail with
  -- `get_item` keeps the first node and stores the rest back
  | nil =>
      have hnull : next x = none := htail
      simp only [step, hnull]
      exact hlast rfl _ _ ⟨rfl, hnull, htaken⟩
  | cons y tail =>
      have hy : next x = some y := htail.1
      rw [hy] at htail
      simp only [step, hy]
      exact storeTail_leads rfl htaken htail (hmore (by simp))

theorem getLoad_returns (h : Holds b next old A [])
    (hgot : ∀ x more A', A.getItem = some (x, more, A') →
      ∀ m r, Got old A' x more m r → Q m r)
    (hnone : A.getItem = none → Q (b, next) (none, false)) :
    (program I).Returns Q (b, next) .getLoad := by
  -- the rounds of the loop are the distances of the scan
  have hrounds : (program I).Returns Q (b, next) (.getExchange b.getPosition (round 0)) := by
    refine scan_loop (p := fun k => !(A.lists (A.get + k)).isEmpty)
      (P := fun k => (program I).Returns Q (b, next) (.getExchange b.getPosition (round k)))
      ?_ ?_ ?_
    · intro k hk
      have hfirst : A.firstFull = some k := hk
      obtain ⟨x, tail, hlist⟩ := List.exists_cons_of_ne_nil (l := A.lists (A.get + k))
        (by simpa using scan_spec hk)
      refine getExchange_found h hlist (fun htail => hgot x false _ ?_)
        (fun htail => hgot x true _ ?_)
      · simp only [Shelf.getItem, hfirst, hlist, if_pos htail]
      · simp only [Shelf.getItem, hfirst, hlist, if_neg htail]
    · intro k hk hrest
      refine getExchange_empty h (by simpa using hk) ?_
      rw [if_pos (round_succ k).2, (round_succ k).1]
      exact hrest
    · intro hk hscan
      have hfirst : A.firstFull = none := hscan
      refine getExchange_empty h (by simpa using hk) ?_
      rw [if_neg (by decide)]
      refine hnone ?_
      simp only [Shelf.getItem, hfirst]
  exact returns_of_step rfl hrounds

/-- `put_items_list`. -/
theorem putItemsList_returns {node : I} (h : Holds b next old A l)
    (hl : Seg next (some node) l none)
    (hQ : ∀ m, Holds m.1 m.2 old (A.storeList l) [] → Q m (none, false)) :
    (program I).Returns Q (b, next) (.emptyLoad .putItemsList node) := by
  rw [← List.append_nil l] at h
  refine emptyLoad_returns h hl (fun b' A' hA' h' => ?_) (fun hA' => ?_)
  · have hstore : A.storeList l = A' := by simp only [Shelf.storeList, hA', Option.getD_some]
    exact hQ (b', next) (hstore ▸ h')
  · have hstore : A.storeList l = A.storeOccupied l := by
      simp only [Shelf.storeList, hA', Option.getD_none]
    exact occupiedAdd_returns h hl (fun b' next' h' => hQ (b', next') (hstore ▸ h'))

/-- `put_priority_item`. -/
theorem prioLoad_returns (h : Holds b next old A [item])
    (hQ : ∀ m, Holds m.1 m.2 old (A.putPriority item) [] → Q m (none, false)) :
    (program I).Returns Q (b, next) (.prioLoad item) := by
  have hindex : slot b.getPosition = A.get := h.get
  have hlink := h.write (x := item) (by simp) (b.buffer A.get)
  have hseg : Seg (Function.update next item (b.buffer A.get)) (some item)
      ([item] ++ A.lists A.get) none := by
    refine ⟨rfl, ?_⟩
    simpa using hlink.seg A.get
  refine returns_of_step rfl (returns_of_step rfl ?_)
  simp only [step, hindex]
  refine returns_of_cas ?_ ?_
  · simp [step, hindex]
  · simp only [step, hindex, and_self, if_true]
    exact hQ (_, _) (Holds.prepend hlink hseg)

end BoundBuffer

/-! ## §7. The queue. -/

namespace LockFreeQueue

variable {I : Type*} {q : LockFreeQueue I} {next : I → Option I} {A : Store I}
  {own own' kept : List I} {x : I}

/-- The memory holds the store `A`, the call holds the nodes `own`. -/
structure Holds (q : LockFreeQueue I) (next : I → Option I) (A : Store I) (own : List I) :
    Prop where
  get : BoundBuffer.slot q.itemBuffer.getPosition = A.itemBuffer.get
  put : BoundBuffer.slot q.itemBuffer.putPosition = A.itemBuffer.put
  slots : ∀ i, Seg next (q.itemBuffer.buffer i) (A.itemBuffer.lists i) none
  prio : ∀ i, Seg next (q.prioQueue i) (A.prioQueue i) none
  nodup : (A.items + (own : Multiset I)).Nodup

theorem Holds.not_mem (h : Holds q next A own) (hx : x ∈ own) : x ∉ A.items := fun hi =>
  Multiset.disjoint_left.mp (Multiset.nodup_add.mp h.nodup).2.2 hi (by simpa using hx)

/-- A call receives a node that is not stored. -/
theorem Holds.receive (h : Holds q next A []) (hx : x ∉ A.items) : Holds q next A [x] := by
  refine ⟨h.get, h.put, h.slots, h.prio, Multiset.nodup_add.mpr ⟨?_, by simp, ?_⟩⟩
  · have := h.nodup
    rwa [Multiset.coe_nil, add_zero] at this
  · rw [Multiset.coe_singleton, Multiset.disjoint_singleton]
    exact hx

/-- Nodes leave the call for good. -/
theorem Holds.drop (h : Holds q next A own) : Holds q next A [] := by
  refine ⟨h.get, h.put, h.slots, h.prio, ?_⟩
  rw [Multiset.coe_nil, add_zero]
  exact (Multiset.nodup_add.mp h.nodup).1

/-- Links of nodes that are not stored do not matter. -/
theorem Holds.congr {next' : I → Option I} (h : Holds q next A own)
    (hw : ∀ y ∈ A.items, next' y = next y) : Holds q next' A own := by
  refine ⟨h.get, h.put, fun i => ?_, fun i => ?_, h.nodup⟩
  · refine (h.slots i).congr (fun y hy => hw y ?_)
    exact Store.mem_items.mpr (.inl (Shelf.mem_items.mpr ⟨i, hy⟩))
  · exact (h.prio i).congr (fun y hy => hw y (Store.mem_items.mpr (.inr ⟨i, hy⟩)))

/-- The order of the call's nodes does not matter. -/
theorem Holds.perm (h : Holds q next A own) (hp : own.Perm own') : Holds q next A own' := by
  have hown : (own : Multiset I) = (own' : Multiset I) := Multiset.coe_eq_coe.mpr hp
  exact ⟨h.get, h.put, h.slots, h.prio, hown ▸ h.nodup⟩

/-- One stack gets another list. -/
theorem Holds.trade (h : Holds q next A own) {i : Fin queueCount} {v : Option I} {l : List I}
    (hs : Seg next v l none)
    (hitems : (A.setStack i l).items + (own' : Multiset I) = A.items + (own : Multiset I)) :
    Holds { q with prioQueue := Function.update q.prioQueue i v } next (A.setStack i l) own' := by
  refine ⟨h.get, h.put, h.slots, fun j => ?_, hitems ▸ h.nodup⟩
  by_cases hj : j = i
  · subst hj
    simpa [Store.setStack] using hs
  · simpa [Store.setStack, hj] using h.prio j

/-- A call of the buffer gets some of the nodes. -/
theorem Holds.toBuffer (kept : List I) (h : Holds q next A (own ++ kept)) :
    q.itemBuffer.Holds next next A.itemBuffer own := by
  refine ⟨h.get, h.put, h.slots, Multiset.nodup_of_le ?_ h.nodup, fun _ _ => rfl⟩
  unfold Store.items
  rw [← Multiset.coe_add]
  refine add_le_add (Multiset.le_add_right _ _) (Multiset.le_add_right _ _)

/-- It does not touch the others, nor the stacks. -/
theorem Holds.ofBuffer (kept : List I) (h : Holds q next A (own ++ kept)) {b' : BoundBuffer I}
    {next' : I → Option I} {B : Shelf I} (hb : b'.Holds next' next B own')
    (hitems : B.items + (own' : Multiset I) = A.itemBuffer.items + (own : Multiset I)) :
    Holds { q with itemBuffer := b' } next' { A with itemBuffer := B } (own' ++ kept) ∧
      ∀ y ∈ kept, next' y = next y := by
  have htotal : A.items + ((own ++ kept : List I) : Multiset I) =
      (B.items + (own' : Multiset I)) +
        (∑ i, (A.prioQueue i : Multiset I) + (kept : Multiset I)) := by
    unfold Store.items
    rw [hitems, ← Multiset.coe_add]
    ac_rfl
  have hnodup := h.nodup
  rw [htotal] at hnodup
  have hdisjoint := (Multiset.nodup_add.mp hnodup).2.2
  have hsame : ∀ y ∈ ∑ i, (A.prioQueue i : Multiset I) + (kept : Multiset I),
      next' y = next y := fun y hy =>
    hb.outside y (fun hin => Multiset.disjoint_left.mp hdisjoint hin hy)
  refine ⟨⟨hb.get, hb.put, hb.seg, fun i => ?_, ?_⟩, fun y hy => ?_⟩
  · refine (h.prio i).congr (fun y hy => hsame y (Multiset.mem_add.mpr (.inl ?_)))
    exact Multiset.mem_sum.mpr ⟨i, Finset.mem_univ i, hy⟩
  · have hsum : ({ A with itemBuffer := B } : Store I).items +
        ((own' ++ kept : List I) : Multiset I) = (B.items + (own' : Multiset I)) +
          (∑ i, (A.prioQueue i : Multiset I) + (kept : Multiset I)) := by
      unfold Store.items
      rw [← Multiset.coe_add]
      ac_rfl
    rw [hsum]
    exact hnodup
  · exact hsame y (Multiset.mem_add.mpr (.inr hy))

variable [DecidableEq I]

/-- The call writes the link of a node it holds. -/
theorem Holds.write (h : Holds q next A own) (hx : x ∈ own) (v : Option I) :
    Holds q (Function.update next x v) A own := by
  refine h.congr (fun y hy => ?_)
  have hyx : y ≠ x := by
    rintro rfl
    exact h.not_mem hx hy
  simp [hyx]

/-- The memory of a queue: its atomics, and the links of the items. -/
abbrev Memory (I : Type*) := LockFreeQueue I × (I → Option I)

def Next.toSum : Next I → Pc I ⊕ (Option I × Bool)
  | .goto pc => .inl pc
  | .ret item haveMore => .inr (item, haveMore)

/-- The member functions of `LockFreeQueue`. -/
def program (I : Type*) [DecidableEq I] : Program (Memory I) (Pc I) (Option I × Bool) where
  step spurious m pc :=
    let r := step spurious m.1 m.2 pc
    ((r.1, r.2.1), r.2.2.toSum)

theorem program_goto {flag : Bool} {m m' : Memory I} {pc pc' : Pc I}
    (h : (program I).step flag m pc = (m', .inl pc')) :
    m' = ((step flag m.1 m.2 pc).1, (step flag m.1 m.2 pc).2.1) ∧
      (step flag m.1 m.2 pc).2.2 = .goto pc' := by
  simp only [program, Prod.mk.injEq] at h
  obtain ⟨rfl, hsum⟩ := h
  refine ⟨rfl, ?_⟩
  cases hr : (step flag m.1 m.2 pc).2.2 with
  | goto pc'' =>
      rw [hr] at hsum
      cases hsum
      rfl
  | ret item more =>
      rw [hr] at hsum
      cases hsum

theorem program_ret {flag : Bool} {m m' : Memory I} {pc : Pc I} {r : Option I × Bool}
    (h : (program I).step flag m pc = (m', .inr r)) :
    m' = ((step flag m.1 m.2 pc).1, (step flag m.1 m.2 pc).2.1) ∧
      (step flag m.1 m.2 pc).2.2 = .ret r.1 r.2 := by
  simp only [program, Prod.mk.injEq] at h
  obtain ⟨rfl, hsum⟩ := h
  refine ⟨rfl, ?_⟩
  cases hr : (step flag m.1 m.2 pc).2.2 with
  | goto pc' =>
      rw [hr] at hsum
      cases hsum
  | ret item more =>
      rw [hr] at hsum
      cases hsum
      rfl

/-- `get_item` returns what the store says. -/
def Got (A : Store I) (m : Memory I) (r : Option I × Bool) : Prop :=
  match A.getItem with
  | none => r = (none, false) ∧ Holds m.1 m.2 A []
  | some (x, more, A') => r = (some x, more) ∧ m.2 x = none ∧ Holds m.1 m.2 A' []

/-- `put_item` leaves the store `A`. -/
def Stored (A : Store I) (m : Memory I) (r : Option I × Bool) : Prop :=
  r = (none, false) ∧ Holds m.1 m.2 A []

variable {Q : Memory I → Option I × Bool → Prop}
  {R : BoundBuffer.Memory I → Option I × Bool → Prop} {b : BoundBuffer I}
  {pc : BoundBuffer.Pc I}

/-- A step without a weak compare-exchange. -/
theorem returns_of_step {pc : Pc I} (hsame : step true q next pc = step false q next pc)
    (h : (program I).Continues Q ((step false q next pc).1, (step false q next pc).2.1)
      (step false q next pc).2.2.toSum) : (program I).Returns Q (q, next) pc := by
  refine .intro (.inl ?_) h
  simp only [program, hsame]

/-- A compare-exchange that may fail and find the same again. -/
theorem returns_of_cas {pc : Pc I} (hretry : step true q next pc = (q, next, .goto pc))
    (h : (program I).Continues Q ((step false q next pc).1, (step false q next pc).2.1)
      (step false q next pc).2.2.toSum) : (program I).Returns Q (q, next) pc := by
  refine .intro (.inr ?_) h
  simp only [program, hretry]
  rfl

/-- **A member function of the buffer inside one of the queue**, at the points
`emb`; `ret` is what the queue does with its result. -/
theorem inBuffer_returns (emb : BoundBuffer.Pc I → Pc I) (ret : Option I → Bool → Next I)
    (hstep : ∀ spurious (q : LockFreeQueue I) next pc, step spurious q next (emb pc) =
      ({ q with itemBuffer := (q.itemBuffer.step spurious next pc).1 },
        (q.itemBuffer.step spurious next pc).2.1,
        match (q.itemBuffer.step spurious next pc).2.2 with
        | .goto pc' => .goto (emb pc')
        | .ret item more => ret item more))
    (h : (BoundBuffer.program I).Returns R (q.itemBuffer, next) pc)
    (hret : ∀ m item more, R m (item, more) →
      (program I).Continues Q ({ q with itemBuffer := m.1 }, m.2) (ret item more).toSum) :
    (program I).Returns Q (q, next) (emb pc) := by
  refine h.inner (fun m => ({ q with itemBuffer := m.1 }, m.2)) emb
    (fun r => (ret r.1 r.2).toSum) ?_ ?_ (fun m r hr => hret m r.1 r.2 hr)
  · intro flag m m' pc pc' hs
    obtain ⟨rfl, hgoto⟩ := BoundBuffer.program_goto hs
    simp only [program, hstep, hgoto]
    rfl
  · intro flag m m' pc r hs
    obtain ⟨rfl, hreturn⟩ := BoundBuffer.program_ret hs
    simp only [program, hstep, hreturn]

/-- `pop_list` of an empty stack. -/
theorem pop_empty (h : Holds q next A own) {i : Fin queueCount} (hempty : A.prioQueue i = [])
    (hnext : (program I).Continues Q (q, next) (nextPop i).toSum) :
    (program I).Returns Q (q, next) (.pop i) := by
  have hnull : q.prioQueue i = none := by
    have := h.prio i
    rwa [hempty] at this
  have hsame : Function.update q.prioQueue i none = q.prioQueue := by
    rw [← hnull, Function.update_eq_self]
  refine returns_of_step rfl ?_
  simpa only [step, LockFreeStack.popList, hnull, hsame] using hnext

/-- `pop_list` of a stack that is not empty. -/
theorem pop_found (h : Holds q next A []) {i : Fin queueCount} (hfirst : A.firstStack = some i)
    (hbuf : A.itemBuffer.getItem = none) : (program I).Returns (Got A) (q, next) (.pop i) := by
  obtain ⟨x, rest, hstack⟩ := List.exists_cons_of_ne_nil (Store.firstStack_spec hfirst)
  have hseg := h.prio i
  rw [hstack] at hseg
  obtain ⟨hhead, hrest⟩ := hseg
  have hitems : (A.setStack i []).items + ((x :: rest : List I) : Multiset I) =
      A.items + (([] : List I) : Multiset I) := by
    rw [← hstack]
    exact A.setStack_items i []
  have hout := (h.trade (v := none) (seg_nil.mpr rfl) hitems).write (x := x) (by simp) none
  have hget : A.getItem = A.popStack i := by
    simp only [Store.getItem, hbuf, hfirst, Option.bind_some]
  refine returns_of_step rfl ?_
  cases rest with
  -- one item: nothing is stored back
  | nil =>
      have hnull : next x = none := hrest
      have hpop : A.getItem = some (x, false, A.setStack i []) := by
        simp only [hget, Store.popStack, hstack, if_true]
      simp only [step, LockFreeStack.popList, hhead, hnull]
      show Got A _ _
      unfold Got
      rw [hpop]
      refine ⟨rfl, by simp, hout.drop⟩
  -- `x` is held while the rest goes through `put_items_list`
  | cons y rest =>
      have hy : next x = some y := hrest.1
      have hpop : A.getItem = some (x, true, { A.setStack i [] with
          itemBuffer := (A.setStack i []).itemBuffer.storeList (y :: rest) }) := by
        simp only [hget, Store.popStack, hstack, List.cons_ne_nil, if_false]
      have hperm : (x :: y :: rest).Perm ((y :: rest) ++ [x]) :=
        (List.perm_append_singleton x (y :: rest)).symm
      have hkept := hout.perm hperm
      have hlist : Seg (Function.update next x none) (some y) (y :: rest) none := by
        have hx : x ∉ y :: rest := by
          have := Multiset.coe_nodup.mp (Multiset.nodup_add.mp hout.nodup).2.1
          exact (List.nodup_cons.mp this).1
        rw [← hy]
        exact hrest.frame hx none
      simp only [step, LockFreeStack.popList, hhead, hy]
      refine inBuffer_returns
        (R := fun m _ => m.1.Holds m.2 (Function.update next x none)
          ((A.setStack i []).itemBuffer.storeList (y :: rest)) [])
        (.putRest x) (fun _ _ => .ret (some x) true) (fun _ _ _ _ => rfl)
        (BoundBuffer.putItemsList_returns (hkept.toBuffer [x]) hlist fun m hm => hm) ?_
      intro m item more hm
      obtain ⟨hall, hx⟩ := hkept.ofBuffer [x] hm (by
        rw [Shelf.storeList_items, Multiset.coe_nil, add_zero])
      show Got A _ _
      unfold Got
      rw [hpop]
      refine ⟨rfl, ?_, hall.drop⟩
      rw [hx x (by simp)]
      simp

/-- `get_item` after the buffer was found empty. -/
theorem pop_returns (h : Holds q next A []) (hbuf : A.itemBuffer.getItem = none) :
    (program I).Returns (Got A) (q, next) (.pop 0) := by
  refine scan_loop (p := fun i => !(A.prioQueue i).isEmpty)
    (P := fun i => (program I).Returns (Got A) (q, next) (.pop i))
    (fun i hi => pop_found h hi hbuf) ?_ ?_
  · intro i hi hrest
    refine pop_empty h (by simpa using hi) ?_
    have hlt : i.castSucc.val + 1 < queueCount := by
      have := i.isLt
      show i.val + 1 < 3
      omega
    rw [nextPop, dif_pos hlt]
    exact hrest
  · intro hlast hnone
    have hget : A.getItem = none := by
      have hfirst : A.firstStack = none := hnone
      simp only [Store.getItem, hbuf, hfirst, Option.bind_none]
    refine pop_empty h (by simpa using hlast) ?_
    show Got A _ _
    unfold Got
    rw [hget]
    exact ⟨rfl, h⟩

theorem getItem_returns (h : Holds q next A []) :
    (program I).Returns (Got A) (q, next) getItem := by
  refine inBuffer_returns (R := fun m r =>
      (∃ x more B, A.itemBuffer.getItem = some (x, more, B) ∧ BoundBuffer.Got next B x more m r) ∨
      (A.itemBuffer.getItem = none ∧ m = (q.itemBuffer, next) ∧ r = (none, false)))
    .getBuffer
    (fun item more => item.elim (.goto (.pop 0)) (fun item => .ret (some item) more)) ?_ ?_ ?_
  · intro spurious q next pc
    simp only [step]
    cases (q.itemBuffer.step spurious next pc).2.2 with
    | goto pc' => rfl
    | ret item more => cases item <;> rfl
  -- the buffer first, and the stacks if it is empty
  · refine BoundBuffer.getLoad_returns (h.toBuffer []) (fun x more B hB m r hm => ?_)
      (fun hnone => ?_)
    · exact .inl ⟨x, more, B, hB, hm⟩
    · exact .inr ⟨hnone, rfl, rfl⟩
  · rintro m item more (⟨x, more, B, hB, hr, hnull, hm⟩ | ⟨hnone, rfl, hr⟩)
    · cases hr
      obtain ⟨hitems, -⟩ := Shelf.getItem_items hB
      have hall := (h.ofBuffer [] hm (by
        rw [hitems, Multiset.coe_nil, add_zero, Multiset.coe_singleton, add_comm]
        rfl)).1
      have hget : A.getItem = some (x, more, { A with itemBuffer := B }) := by
        simp only [Store.getItem, hB]
      show Got A _ _
      unfold Got
      rw [hget]
      exact ⟨rfl, hnull, hall.drop⟩
    · cases hr
      exact pop_returns h hnone

/-- `push` on a stack. -/
theorem push_returns (h : Holds q next A [x]) (i : Fin queueCount) :
    (program I).Returns (Stored (A.setStack i (x :: A.prioQueue i))) (q, next)
      (.push i x .load) := by
  -- the item is linked to the old head before the compare-exchange
  have hlink := h.write (x := x) (by simp) (q.prioQueue i)
  have hseg : Seg (Function.update next x (q.prioQueue i)) (some x) (x :: A.prioQueue i) none := by
    refine ⟨rfl, ?_⟩
    simpa using hlink.prio i
  have hitems : (A.setStack i (x :: A.prioQueue i)).items + (([] : List I) : Multiset I) =
      A.items + (([x] : List I) : Multiset I) := by
    rw [Store.push_items, Multiset.coe_nil, add_zero, Multiset.coe_singleton,
      ← Multiset.singleton_add, add_comm]
  have hload : ∀ spurious, step spurious q next (.push i x .load) =
      (q, Function.update next x (q.prioQueue i), .goto (.push i x (.cas (q.prioQueue i)))) := by
    simp [step, LockFreeStack.push]
  refine returns_of_step (by rw [hload, hload]) ?_
  rw [hload]
  refine returns_of_cas ?_ ?_
  · simp [step, LockFreeStack.push]
  · simp only [step, LockFreeStack.push, and_self, if_true]
    exact ⟨rfl, hlink.trade hseg hitems⟩

theorem putItem_returns (h : Holds q next A [x]) (prio : UInt32) :
    (program I).Returns (Stored (A.putItem x prio)) (q, next) (putItem x prio) := by
  by_cases hprio : prio = 0
  · simp only [putItem, Store.putItem, if_pos hprio]
    refine inBuffer_returns (R := fun m _ => m.1.Holds m.2 next (A.itemBuffer.putPriority x) [])
      .putPrio (fun _ _ => .ret none false) (fun _ _ _ _ => rfl)
      (BoundBuffer.prioLoad_returns (h.toBuffer []) fun m hm => hm) ?_
    intro m item more hm
    have hitems : (A.itemBuffer.putPriority x).items + (([] : List I) : Multiset I) =
        A.itemBuffer.items + (([x] : List I) : Multiset I) := by
      rw [Shelf.putPriority_items, Multiset.coe_nil, add_zero, Multiset.coe_singleton,
        ← Multiset.singleton_add, add_comm]
    exact ⟨rfl, (h.ofBuffer [] hm hitems).1⟩
  · simp only [putItem, Store.putItem, if_neg hprio]
    exact push_returns h (Store.level prio)

end LockFreeQueue

end Queue

end Alterstack
