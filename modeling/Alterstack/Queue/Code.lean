/-
  Alterstack.Queue.Code — `LockFreeStack`, `BoundBuffer` and `LockFreeQueue`,
  one atomic access at a time.

  Every member function is modelled by its control points, which carry the
  local variables; one step performs the atomic access of the point together
  with the accesses to links (`next`, `set_next`) that follow it, except that
  the walk of `find_last_item_in_list` takes one step for each link it reads.
  `spurious` is the weak compare-exchange's licence to fail although the values
  agree.  Positions are 32-bit and wrap.
-/
import Mathlib.Data.Nat.Notation
import Mathlib.Logic.Function.Basic

namespace Alterstack

namespace Queue

variable {I : Type*} [DecidableEq I]

/-! ## §1. `LockFreeStack`: `push` and `pop_list` on `m_head`. -/

namespace LockFreeStack

/-- `push(item)` before the load of `m_head`, and at its compare-exchange with
the local `head`. -/
inductive PushPc (I : Type*) where
  | load
  | cas (head : Option I)
  deriving DecidableEq

/-- On to another point, or back with `true` for a stack that was empty. -/
inductive PushNext (I : Type*) where
  | goto (pc : PushPc I)
  | ret (wasEmpty : Bool)
  deriving DecidableEq

/-- One step of `push(item)`: the new `m_head`, the new links, where it leads. -/
def push (spurious : Bool) (item : I) (mHead : Option I) (next : I → Option I) :
    PushPc I → Option I × (I → Option I) × PushNext I
  | .load => (mHead, Function.update next item mHead, .goto (.cas mHead))
  | .cas head =>
      if mHead = head ∧ spurious = false then (some item, next, .ret head.isNone)
      else (mHead, Function.update next item mHead, .goto (.cas mHead))

/-- `pop_list()` is one exchange: the new `m_head` and the list. -/
def popList (mHead : Option I) : Option I × Option I := (none, mHead)

end LockFreeStack

/-! ## §2. `BoundBuffer`. -/

abbrev bufferSize : ℕ := 4

structure BoundBuffer (I : Type*) where
  getPosition : UInt32
  putPosition : UInt32
  buffer : Fin bufferSize → Option I

namespace BoundBuffer

/-- `position % BUFFER_SIZE`. -/
def slot (position : UInt32) : Fin bufferSize :=
  ⟨position.toNat % bufferSize, Nat.mod_lt _ (by decide)⟩

/-- Who called `store_in_empty_slot`: `store_tail` in round `i` with the rest
of the list, on behalf of the `get_item` that will return `item`, or
`put_items_list`. -/
inductive Caller (I : Type*) where
  | storeTail (item : I) (i : UInt32) (itemsList : Option I)
  | putItemsList
  deriving DecidableEq

/-- Control points.  `get*` is `get_item`, `empty*` `store_in_empty_slot(node)`,
`occupied*` `store_in_occupied_slot(itemsList)` (called from `store_tail` when
`ret` is the item to return, from `put_items_list` when it is null), `prio*`
`put_priority_item(item)`. -/
inductive Pc (I : Type*) where
  | getLoad
  | getExchange (index i : UInt32)
  | getReload (index i : UInt32)
  | getAdd (i : UInt32) (item : I)
  | emptyLoad (caller : Caller I) (node : I)
  | emptyCas (caller : Caller I) (node : I) (index i : UInt32)
  | emptyReload (caller : Caller I) (node : I) (index i : UInt32)
  | emptyAdd (caller : Caller I) (i : UInt32)
  | occupiedAdd (ret itemsList : Option I)
  | occupiedExchange (ret itemsList : Option I) (index : UInt32)
  | occupiedFind (ret itemsList : Option I) (index : UInt32) (oldList lastItem : I)
  | occupiedCas (ret itemsList : Option I) (index : UInt32) (oldList lastItem : I)
  | prioLoad (item : I)
  | prioRead (item : I) (index : UInt32)
  | prioCas (item : I) (index : UInt32) (nextItem : Option I)
  deriving DecidableEq

/-- On to another point, or back to the caller; `get_item` returns its item and
whether it has set `have_more`, the others return a null item. -/
inductive Next (I : Type*) where
  | goto (pc : Pc I)
  | ret (item : Option I) (haveMore : Bool)
  deriving DecidableEq

/-- What a step returns: the buffer, the links and where it leads. -/
abbrev Result (I : Type*) := BoundBuffer I × (I → Option I) × Next I

/-- `get_item` after `store_tail` has returned. -/
def finishGet (b : BoundBuffer I) (next : I → Option I) (item : I) : Result I :=
  (b, Function.update next item none, .ret (some item) true)

/-- The loop of `store_tail` before round `i`. -/
def storeTail (b : BoundBuffer I) (next : I → Option I) (item : I) (i : UInt32)
    (itemsList : Option I) : Result I :=
  if i < 3 then
    match itemsList with
    | none => finishGet b next item
    | some node =>
        (b, Function.update next node none, .goto (.emptyLoad (.storeTail item i (next node)) node))
  else (b, next, .goto (.occupiedAdd (some item) itemsList))

/-- `store_in_empty_slot` has returned true. -/
def emptyStored (b : BoundBuffer I) (next : I → Option I) : Caller I → Result I
  | .putItemsList => (b, next, .ret none false)
  | .storeTail item i itemsList => storeTail b next item (i + 1) itemsList

/-- `store_in_empty_slot(node)` has returned false. -/
def emptyFailed (b : BoundBuffer I) (next : I → Option I) (node : I) : Caller I → Result I
  | .putItemsList => (b, next, .goto (.occupiedAdd none (some node)))
  | .storeTail item _ itemsList =>
      (b, Function.update next node itemsList, .goto (.occupiedAdd (some item) (some node)))

/-- `store_in_occupied_slot` has returned. -/
def occupiedStored (b : BoundBuffer I) (next : I → Option I) : Option I → Result I
  | none => (b, next, .ret none false)
  | some item => finishGet b next item

def setSlot (b : BoundBuffer I) (i : Fin bufferSize) (v : Option I) : BoundBuffer I :=
  { b with buffer := Function.update b.buffer i v }

/-- One step of the member function that is at the control point. -/
def step (spurious : Bool) (b : BoundBuffer I) (next : I → Option I) : Pc I → Result I
  | .getLoad => (b, next, .goto (.getExchange b.getPosition 0))
  | .getExchange index i =>
      let item := b.buffer (slot (index + i))
      (b.setSlot (slot (index + i)) none, next,
        match item with
        | some item => .goto (.getAdd i item)
        | none => .goto (.getReload index i))
  | .getReload index i =>
      (b, next,
        if index ≠ b.getPosition then .goto (.getExchange b.getPosition 0)
        else if i + 1 < 4 then .goto (.getExchange index (i + 1))
        else .ret none false)
  | .getAdd i item =>
      let b' := { b with getPosition := b.getPosition + (i + 1) }
      match next item with
      | none => (b', next, .ret (some item) false)
      | some tail => storeTail b' next item 0 (some tail)
  | .emptyLoad caller node => (b, next, .goto (.emptyCas caller node b.putPosition 0))
  | .emptyCas caller node index i =>
      if b.buffer (slot (index + i)) = none then
        (b.setSlot (slot (index + i)) (some node), next, .goto (.emptyAdd caller i))
      else (b, next, .goto (.emptyReload caller node index i))
  | .emptyReload caller node index i =>
      if index ≠ b.putPosition then (b, next, .goto (.emptyCas caller node b.putPosition 0))
      else if i + 1 < 4 then (b, next, .goto (.emptyCas caller node index (i + 1)))
      else emptyFailed b next node caller
  | .emptyAdd caller i =>
      emptyStored { b with putPosition := b.putPosition + (i + 1) } next caller
  | .occupiedAdd ret itemsList =>
      ({ b with putPosition := b.putPosition + 1 }, next,
        .goto (.occupiedExchange ret itemsList b.putPosition))
  | .occupiedExchange ret itemsList index =>
      let b' := b.setSlot (slot index) itemsList
      match b.buffer (slot index) with
      | none => occupiedStored b' next ret
      | some oldList => (b', next, .goto (.occupiedFind ret itemsList index oldList oldList))
  | .occupiedFind ret itemsList index oldList lastItem =>
      match next lastItem with
      | some item => (b, next, .goto (.occupiedFind ret itemsList index oldList item))
      | none =>
          (b, Function.update next lastItem itemsList,
            .goto (.occupiedCas ret itemsList index oldList lastItem))
  | .occupiedCas ret itemsList index oldList lastItem =>
      let cur := b.buffer (slot index)
      if cur = itemsList ∧ spurious = false then
        occupiedStored (b.setSlot (slot index) (some oldList)) next ret
      else
        (b, Function.update next lastItem cur,
          .goto (.occupiedCas ret cur index oldList lastItem))
  | .prioLoad item => (b, next, .goto (.prioRead item b.getPosition))
  | .prioRead item index =>
      let nextItem := b.buffer (slot index)
      (b, Function.update next item nextItem, .goto (.prioCas item index nextItem))
  | .prioCas item index nextItem =>
      let cur := b.buffer (slot index)
      if cur = nextItem ∧ spurious = false then
        (b.setSlot (slot index) (some item), next, .ret none false)
      else (b, Function.update next item cur, .goto (.prioCas item index cur))

end BoundBuffer

/-! ## §3. `LockFreeQueue`. -/

abbrev queueCount : ℕ := 3

structure LockFreeQueue (I : Type*) where
  itemBuffer : BoundBuffer I
  prioQueue : Fin queueCount → Option I

namespace LockFreeQueue

/-- Control points: `get_item` inside `m_item_buffer.get_item`, before
`m_prio_queue[i].pop_list()`, and inside `m_item_buffer.put_items_list` with
the item to return; `put_item` inside `put_priority_item` and inside `push`. -/
inductive Pc (I : Type*) where
  | getBuffer (pc : BoundBuffer.Pc I)
  | pop (i : Fin queueCount)
  | putRest (item : I) (pc : BoundBuffer.Pc I)
  | putPrio (pc : BoundBuffer.Pc I)
  | push (i : Fin queueCount) (item : I) (pc : LockFreeStack.PushPc I)
  deriving DecidableEq

/-- On to another point, or back to the caller with the item of `get_item`
(null from `put_item`) and whether `have_more_items` was set. -/
inductive Next (I : Type*) where
  | goto (pc : Pc I)
  | ret (item : Option I) (haveMore : Bool)
  deriving DecidableEq

/-- Where `get_item` starts. -/
def getItem : Pc I := .getBuffer .getLoad

/-- Where `put_item(item, prio)` starts. -/
def putItem (item : I) (prio : UInt32) : Pc I :=
  if prio = 0 then .putPrio (.prioLoad item)
  else
    let prio := if prio ≥ 3 then 3 else prio
    .push ⟨(prio.toNat - 1) % queueCount, Nat.mod_lt _ (by decide)⟩ item .load

/-- The loop over `m_prio_queue` after an empty `pop_list()`. -/
def nextPop (i : Fin queueCount) : Next I :=
  if h : i.val + 1 < queueCount then .goto (.pop ⟨i.val + 1, h⟩) else .ret none false

/-- One step of the member function that is at the control point. -/
def step (spurious : Bool) (q : LockFreeQueue I) (next : I → Option I) :
    Pc I → LockFreeQueue I × (I → Option I) × Next I
  | .getBuffer pc =>
      let r := q.itemBuffer.step spurious next pc
      ({ q with itemBuffer := r.1 }, r.2.1,
        match r.2.2 with
        | .goto pc' => .goto (.getBuffer pc')
        | .ret (some item) haveMore => .ret (some item) haveMore
        | .ret none _ => .goto (.pop 0))
  | .pop i =>
      let r := LockFreeStack.popList (q.prioQueue i)
      let q' := { q with prioQueue := Function.update q.prioQueue i r.1 }
      match r.2 with
      | none => (q', next, nextPop i)
      | some item =>
          (q', Function.update next item none,
            match next item with
            | none => .ret (some item) false
            | some itemsList => .goto (.putRest item (.emptyLoad .putItemsList itemsList)))
  | .putRest item pc =>
      let r := q.itemBuffer.step spurious next pc
      ({ q with itemBuffer := r.1 }, r.2.1,
        match r.2.2 with
        | .goto pc' => .goto (.putRest item pc')
        | .ret _ _ => .ret (some item) true)
  | .putPrio pc =>
      let r := q.itemBuffer.step spurious next pc
      ({ q with itemBuffer := r.1 }, r.2.1,
        match r.2.2 with
        | .goto pc' => .goto (.putPrio pc')
        | .ret _ _ => .ret none false)
  | .push i item pc =>
      let r := LockFreeStack.push spurious item (q.prioQueue i) next pc
      ({ q with prioQueue := Function.update q.prioQueue i r.1 }, r.2.1,
        match r.2.2 with
        | .goto pc' => .goto (.push i item pc')
        | .ret _ => .ret none false)

end LockFreeQueue

end Queue

end Alterstack
