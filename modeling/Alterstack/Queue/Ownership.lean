/-
  Alterstack.Queue.Ownership — which nodes a thread owns at each control point.

  Inside `LockFreeQueue` a node is in a slot's list, in a stack's list, or
  owned by the thread that has taken it out and not stored it back yet.
  `Pc.Owns` says, for every control point, which nodes its thread owns and how
  they are linked.  A step is a trade between the thread and at most one of the
  seven shared lists: it only writes links of nodes the thread owns
  afterwards.  Nothing here depends on a compare-exchange seeing "the same"
  list again: its success only says that the thread's own last node is linked
  to the current head, which is all that storing in front of it needs.

  Main results:
    * `BoundBuffer.step_trade`, `LockFreeQueue.step_trade` — every step of
      every member function is such a trade and leads to a control point (or a
      return) that owns what the thread is left with.
-/
import Alterstack.Lib.Segment
import Alterstack.Queue.Code

namespace Alterstack

namespace Queue

open Lib (Seg)

variable {I κ : Type*} [DecidableEq I]

/-! ## §1. Trades between a thread and shared lists. -/

/-- The shared lists `S`, found from `heads`, beside the nodes `l` of a thread. -/
structure Local (heads : κ → Option I) (next : I → Option I) (S : κ → List I) (l : List I) :
    Prop where
  seg : ∀ k, Seg next (heads k) (S k) none
  nodup : ∀ k, (S k ++ l).Nodup

/-- The list `j` and the thread exchange nodes, no other head changes, and only
links of nodes that the thread then owns are written. -/
def Trade (heads heads' : κ → Option I) (next next' : I → Option I) (S : κ → List I) (l : List I)
    (owns : List I → Prop) : Prop :=
  ∃ j s' l', (∀ k, k ≠ j → heads' k = heads k) ∧ Seg next' (heads' j) s' none ∧
    (s' ++ l').Perm (S j ++ l) ∧ (∀ x, x ∉ l' → next' x = next x) ∧ owns l'

variable {heads : κ → Option I} {next next' : I → Option I} {S : κ → List I} {l l' : List I}
  {owns : List I → Prop}

omit [DecidableEq I] in
theorem Local.own_nodup (h : Local heads next S l) (k : κ) : l.Nodup :=
  (List.nodup_append.mp (h.nodup k)).2.1

omit [DecidableEq I] in
theorem Local.not_own (h : Local heads next S l) {k : κ} {x : I} (hx : x ∈ S k) : x ∉ l :=
  fun hl => (List.nodup_append.mp (h.nodup k)).2.2 x hx x hl rfl

omit [DecidableEq I] in
/-- Writing links of owned nodes does not disturb a shared list. -/
theorem Local.frame (h : Local heads next S l) (k : κ) (hw : ∀ x, x ∉ l → next' x = next x) :
    Seg next' (heads k) (S k) none :=
  (h.seg k).congr (fun x hx => hw x (h.not_own hx))

omit [DecidableEq I] in
/-- A step that leaves every head alone. -/
theorem Trade.quiet (h : Local heads next S l) (j : κ) (hp : l'.Perm l)
    (hw : ∀ x, x ∉ l' → next' x = next x) (ho : owns l') :
    Trade heads heads next next' S l owns :=
  ⟨j, S j, l', fun _ _ => rfl, h.frame j (fun x hx => hw x (fun h' => hx (hp.subset h'))),
    hp.append_left (S j), hw, ho⟩

omit [DecidableEq I] in
theorem Trade.imp {heads' : κ → Option I} {owns' : List I → Prop}
    (h : Trade heads heads' next next' S l owns) (himp : ∀ l', owns l' → owns' l') :
    Trade heads heads' next next' S l owns' := by
  obtain ⟨j, s', l', h1, h2, h3, h4, h5⟩ := h
  exact ⟨j, s', l', h1, h2, h3, h4, himp l' h5⟩

omit [DecidableEq I] in
/-- A step that replaces the list of one head. -/
theorem Trade.at_head [DecidableEq κ] {j : κ} {v : Option I} {m n : List I}
    (hs : Seg next' v m none) (hp : (m ++ n).Perm (S j ++ l))
    (hw : ∀ x, x ∉ n → next' x = next x) (ho : owns n) :
    Trade heads (Function.update heads j v) next next' S l owns :=
  ⟨j, m, n, fun k hk => by simp [hk], by simpa using hs, hp, hw, ho⟩

theorem update_of_not_mem {x : I} (v : Option I) (hx : x ∈ l) :
    ∀ y, y ∉ l → Function.update next x v y = next y := by
  intro y hy
  have : y ≠ x := fun h => hy (h ▸ hx)
  simp [this]

/-! ## §2. `BoundBuffer`. -/

namespace BoundBuffer

/-- The nodes of the caller of `store_in_empty_slot` besides the argument. -/
def Caller.Owns (next : I → Option I) (l : List I) : Caller I → Prop
  | .putItemsList => l = []
  | .storeTail item _ itemsList => ∃ rest, l = item :: rest ∧ Seg next itemsList rest none

/-- The nodes of the caller and of the argument `node`. -/
def Caller.OwnsWith (next : I → Option I) (node : I) (l : List I) : Caller I → Prop
  | .putItemsList => Seg next (some node) l none
  | .storeTail item _ itemsList =>
      next node = none ∧ ∃ rest, l = node :: item :: rest ∧ Seg next itemsList rest none

/-- The nodes `l` of the thread at a control point, and how they are linked. -/
def Pc.Owns (next : I → Option I) (l : List I) : Pc I → Prop
  | .getLoad | .getExchange _ _ | .getReload _ _ => l = []
  | .getAdd _ item => Seg next (some item) l none
  | .emptyLoad caller node | .emptyCas caller node _ _ | .emptyReload caller node _ _ =>
      caller.OwnsWith next node l
  | .emptyAdd caller _ => caller.Owns next l
  | .occupiedAdd ret itemsList | .occupiedExchange ret itemsList _ =>
      ∃ main, l = ret.toList ++ main ∧ Seg next itemsList main none
  | .occupiedFind ret _ _ oldList lastItem =>
      ∃ l₁ l₂, l = ret.toList ++ (l₁ ++ l₂) ∧ Seg next (some oldList) l₁ (some lastItem) ∧
        Seg next (some lastItem) l₂ none
  | .occupiedCas ret itemsList _ oldList lastItem =>
      ∃ l₁, l = ret.toList ++ (l₁ ++ [lastItem]) ∧
        Seg next (some oldList) (l₁ ++ [lastItem]) itemsList
  | .prioLoad item | .prioRead item _ => l = [item]
  | .prioCas item _ nextItem => l = [item] ∧ next item = nextItem

/-- What the thread is left with after a step: the nodes of the next control
point, or exactly the returned item, unlinked. -/
def Next.Owns (next : I → Option I) (l : List I) : Next I → Prop
  | .goto pc => pc.Owns next l
  | .ret item _ => l = item.toList ∧ ∀ x ∈ item, next x = none

omit [DecidableEq I] in
/-- The assertion only looks at links of the owned nodes. -/
theorem Pc.Owns.congr {pc : Pc I} (h : pc.Owns next l) (hl : ∀ x ∈ l, next' x = next x) :
    pc.Owns next' l := by
  have hcaller : ∀ caller : Caller I, caller.Owns next l → caller.Owns next' l := by
    rintro (⟨item, i, itemsList⟩ | _) h
    · obtain ⟨rest, rfl, hs⟩ := h
      exact ⟨rest, rfl, hs.congr (fun x hx => hl x (by simp [hx]))⟩
    · exact h
  have hwith : ∀ (caller : Caller I) node, caller.OwnsWith next node l →
      caller.OwnsWith next' node l := by
    rintro (⟨item, i, itemsList⟩ | _) node h
    · obtain ⟨hn, rest, rfl, hs⟩ := h
      exact ⟨(hl node (by simp)).trans hn, rest, rfl, hs.congr (fun x hx => hl x (by simp [hx]))⟩
    · exact h.congr hl
  -- each list a point owns is made of nodes of `l`, whose links agree
  cases pc with
  | getLoad => exact h
  | getExchange => exact h
  | getReload => exact h
  | getAdd => exact Seg.congr h hl
  | emptyLoad caller node => exact hwith caller node h
  | emptyCas caller node => exact hwith caller node h
  | emptyReload caller node => exact hwith caller node h
  | emptyAdd caller => exact hcaller caller h
  | occupiedAdd ret itemsList =>
      obtain ⟨main, rfl, hs⟩ := h
      exact ⟨main, rfl, hs.congr (fun x hx => hl x (by simp [hx]))⟩
  | occupiedExchange ret itemsList =>
      obtain ⟨main, rfl, hs⟩ := h
      exact ⟨main, rfl, hs.congr (fun x hx => hl x (by simp [hx]))⟩
  | occupiedFind =>
      obtain ⟨l₁, l₂, rfl, hs₁, hs₂⟩ := h
      exact ⟨l₁, l₂, rfl, hs₁.congr (fun x hx => hl x (by simp [hx])),
        hs₂.congr (fun x hx => hl x (by simp [hx]))⟩
  | occupiedCas =>
      obtain ⟨l₁, rfl, hs⟩ := h
      exact ⟨l₁, rfl, hs.congr (fun x hx => hl x (List.mem_append_right _ hx))⟩
  | prioLoad => exact h
  | prioRead => exact h
  | prioCas item =>
      obtain ⟨rfl, hn⟩ := h
      exact ⟨rfl, (hl item (by simp)).trans hn⟩

variable {b : BoundBuffer I} {S : Fin bufferSize → List I}

/-- A step of a member function, as a trade with the slots. -/
abbrev Trades (b : BoundBuffer I) (next : I → Option I) (S : Fin bufferSize → List I)
    (l : List I) (r : Result I) : Prop :=
  Trade b.buffer r.1.buffer next r.2.1 S l (fun l' => r.2.2.Owns r.2.1 l')

theorem finishGet_trade {item : I} (h : Local b.buffer next S [item]) :
    Trades b next S [item] (finishGet b next item) :=
  .quiet h 0 (.refl _) (update_of_not_mem none (by simp)) ⟨rfl, by simp [finishGet]⟩

/-- `store_tail` before a round owns the item to return and the rest. -/
theorem storeTail_trade {item : I} {i : UInt32} {itemsList : Option I} {rest : List I}
    (h : Local b.buffer next S (item :: rest)) (hs : Seg next itemsList rest none) :
    Trades b next S (item :: rest) (storeTail b next item i itemsList) := by
  unfold storeTail
  split
  · cases itemsList with
    | none =>
        obtain ⟨rfl, -⟩ := hs.eq_nil
        exact finishGet_trade h
    | some node =>
        obtain ⟨rest, rfl, htail⟩ := hs.eq_cons
        have hn : node ∉ rest := by
          have := h.own_nodup 0
          simp_all
        refine .quiet h 0 (List.Perm.swap item node rest) (update_of_not_mem none (by simp)) ?_
        exact ⟨by simp, rest, rfl, htail.frame hn none⟩
  · exact .quiet h 0 (.refl _) (fun _ _ => rfl) ⟨rest, rfl, hs⟩

theorem emptyStored_trade {caller : Caller I} (h : Local b.buffer next S l)
    (ho : caller.Owns next l) : Trades b next S l (emptyStored b next caller) := by
  rcases caller with ⟨item, i, itemsList⟩ | _
  · obtain ⟨rest, rfl, hs⟩ := ho
    exact storeTail_trade h hs
  · exact .quiet h 0 (.refl _) (fun _ _ => rfl) ⟨ho, by simp⟩

theorem emptyFailed_trade {caller : Caller I} {node : I} (h : Local b.buffer next S l)
    (ho : caller.OwnsWith next node l) : Trades b next S l (emptyFailed b next node caller) := by
  rcases caller with ⟨item, i, itemsList⟩ | _
  · obtain ⟨-, rest, rfl, hs⟩ := ho
    have hn : node ∉ rest := by
      have := h.own_nodup 0
      simp_all
    -- the node is linked in front of the rest again
    exact .quiet h 0 (List.Perm.swap node item rest) (update_of_not_mem itemsList (by simp))
      ⟨node :: rest, rfl, hs.push hn⟩
  · exact .quiet h 0 (.refl _) (fun _ _ => rfl) ⟨l, rfl, ho⟩

omit [DecidableEq I] in
/-- Storing the argument splits off exactly its list. -/
theorem Caller.OwnsWith.split {caller : Caller I} {node : I} (h : caller.OwnsWith next node l) :
    ∃ s' l', l = s' ++ l' ∧ Seg next (some node) s' none ∧ caller.Owns next l' := by
  rcases caller with ⟨item, i, itemsList⟩ | _
  · obtain ⟨hn, rest, rfl, hs⟩ := h
    exact ⟨[node], item :: rest, rfl, Lib.seg_singleton.mpr hn, rest, rfl, hs⟩
  · exact ⟨l, [], by simp, h, rfl⟩

/-- Returning from `store_in_occupied_slot` touches at most the returned item. -/
theorem occupiedStored_spec (b : BoundBuffer I) (next : I → Option I) (ret : Option I) :
    (occupiedStored b next ret).1 = b ∧
    (∀ x, x ∉ ret.toList → (occupiedStored b next ret).2.1 x = next x) ∧
    (occupiedStored b next ret).2.2.Owns (occupiedStored b next ret).2.1 ret.toList := by
  cases ret with
  | none => exact ⟨rfl, fun _ _ => rfl, rfl, by simp⟩
  | some item =>
      exact ⟨rfl, update_of_not_mem none (by simp), rfl, by simp [occupiedStored, finishGet]⟩

/-- The list that goes into the slot at the end of `store_in_occupied_slot`
(or at its exchange) while the thread keeps the item to return. -/
theorem occupiedStored_trade {j : Fin bufferSize} {v ret : Option I} {s' : List I}
    (hs : Seg next v s' none) (hp : (s' ++ ret.toList).Perm (S j ++ l))
    (hnodup : (S j ++ l).Nodup) :
    Trades b next S l (occupiedStored (b.setSlot j v) next ret) := by
  obtain ⟨hb, hw, ho⟩ := occupiedStored_spec (b.setSlot j v) next ret
  unfold Trades
  rw [hb]
  have hdisj := (List.nodup_append.mp (hp.nodup_iff.mpr hnodup)).2.2
  refine .at_head (hs.congr (fun x hx => hw x (fun hr => hdisj x hx x hr rfl))) hp hw ho

/-- **Every step inside `BoundBuffer` is a trade with one slot.** -/
theorem step_trade (spurious : Bool) {pc : Pc I} (h : Local b.buffer next S l)
    (ho : pc.Owns next l) : Trades b next S l (step spurious b next pc) := by
  cases pc with
  | getLoad => exact .quiet h 0 (.refl _) (fun _ _ => rfl) ho
  | getExchange index i =>
      obtain rfl : l = [] := ho
      set j := slot (index + i)
      have hs := h.seg j
      rcases hj : b.buffer j with _ | item
      · rw [hj] at hs
        have hr : step spurious b next (.getExchange index i) =
            (b.setSlot j none, next, .goto (.getReload index i)) := by
          simp [step, j, hj]
        rw [hr]
        exact .at_head (m := []) (n := []) (j := j) rfl (by simp [hs.eq_nil.1]) (fun _ _ => rfl) rfl
      · rw [hj] at hs
        have hr : step spurious b next (.getExchange index i) =
            (b.setSlot j none, next, .goto (.getAdd i item)) := by
          simp [step, j, hj]
        rw [hr]
        -- the whole list of the slot comes out
        exact .at_head (m := []) (n := S j) (j := j) rfl (by simp) (fun _ _ => rfl) hs
  | getReload index i =>
      obtain rfl : l = [] := ho
      refine .quiet h 0 (.refl _) (fun _ _ => rfl) ?_
      simp only [step]
      split_ifs <;> simp [Next.Owns, Pc.Owns]
  | getAdd i item =>
      obtain ⟨rest, rfl, hs⟩ := Seg.eq_cons ho
      rcases hn : next item with _ | tail
      · rw [hn] at hs
        obtain ⟨rfl, -⟩ := hs.eq_nil
        simp only [step, hn]
        exact .quiet h 0 (.refl _) (fun _ _ => rfl) ⟨rfl, by simpa using hn⟩
      · rw [hn] at hs
        simp only [step, hn]
        exact storeTail_trade (b := { b with getPosition := b.getPosition + (i + 1) }) h hs
  | emptyLoad caller node => exact .quiet h 0 (.refl _) (fun _ _ => rfl) ho
  | emptyCas caller node index i =>
      simp only [step]
      split
      next hj =>
        obtain ⟨s', l', rfl, hs, hl'⟩ := Caller.OwnsWith.split ho
        have hempty : S (slot (index + i)) = [] := by
          have := h.seg (slot (index + i))
          rw [hj] at this
          exact this.eq_nil.1
        exact .at_head hs (by simp [hempty]) (fun _ _ => rfl) hl'
      next => exact .quiet h 0 (.refl _) (fun _ _ => rfl) ho
  | emptyReload caller node index i =>
      simp only [step]
      split_ifs
      · exact .quiet h 0 (.refl _) (fun _ _ => rfl) ho
      · exact .quiet h 0 (.refl _) (fun _ _ => rfl) ho
      · exact emptyFailed_trade h ho
  | emptyAdd caller i =>
      exact emptyStored_trade (b := { b with putPosition := b.putPosition + (i + 1) }) h ho
  | occupiedAdd ret itemsList => exact .quiet h 0 (.refl _) (fun _ _ => rfl) ho
  | occupiedExchange ret itemsList index =>
      obtain ⟨main, rfl, hs⟩ := ho
      have hslot := h.seg (slot index)
      rcases hj : b.buffer (slot index) with _ | oldList
      · rw [hj] at hslot
        simp only [step, hj]
        refine occupiedStored_trade hs ?_ (h.nodup _)
        rw [hslot.eq_nil.1]
        exact List.perm_append_comm
      · rw [hj] at hslot
        simp only [step, hj]
        -- the argument goes in, the old list comes out
        refine .at_head (j := slot index) hs ?_ (fun _ _ => rfl)
          ⟨[], S (slot index), rfl, rfl, hslot⟩
        simp only [List.nil_append]
        calc main ++ (ret.toList ++ S (slot index))
            |>.Perm ((ret.toList ++ S (slot index)) ++ main) := List.perm_append_comm
          _ |>.Perm ((S (slot index) ++ ret.toList) ++ main) :=
              List.perm_append_comm.append_right main
          _ = S (slot index) ++ (ret.toList ++ main) := List.append_assoc ..
  | occupiedFind ret itemsList index oldList lastItem =>
      obtain ⟨l₁, l₂, rfl, hs₁, hs₂⟩ := ho
      obtain ⟨l₂, rfl, htail⟩ := hs₂.eq_cons
      rcases hn : next lastItem with _ | item
      · rw [hn] at htail
        obtain ⟨rfl, -⟩ := htail.eq_nil
        have hlast : lastItem ∉ l₁ := by
          have := h.own_nodup 0
          simp [List.nodup_append] at this
          tauto
        simp only [step, hn]
        refine .quiet h 0 (.refl _) (update_of_not_mem itemsList (by simp)) ⟨l₁, rfl, ?_⟩
        exact (hs₁.append (Lib.seg_singleton.mpr rfl)).relink_last hlast
      · rw [hn] at htail
        simp only [step, hn]
        refine .quiet h 0 (.refl _) (fun _ _ => rfl) ⟨l₁ ++ [lastItem], l₂, by simp, ?_, htail⟩
        exact hs₁.append (Lib.seg_singleton.mpr hn)
  | occupiedCas ret itemsList index oldList lastItem =>
      obtain ⟨l₁, rfl, hs⟩ := ho
      simp only [step]
      split
      next hcas =>
        -- whatever is in the slot now, the own last node is linked to its head
        have hslot := h.seg (slot index)
        rw [hcas.1] at hslot
        refine occupiedStored_trade (hs.append hslot) ?_ (h.nodup _)
        calc ((l₁ ++ [lastItem]) ++ S (slot index)) ++ ret.toList
            |>.Perm (ret.toList ++ ((l₁ ++ [lastItem]) ++ S (slot index))) :=
              List.perm_append_comm
          _ = (ret.toList ++ (l₁ ++ [lastItem])) ++ S (slot index) :=
              (List.append_assoc ..).symm
          _ |>.Perm (S (slot index) ++ (ret.toList ++ (l₁ ++ [lastItem]))) :=
              List.perm_append_comm
      next =>
        have hlast : lastItem ∉ l₁ := by
          have := h.own_nodup 0
          simp [List.nodup_append] at this
          tauto
        exact .quiet h 0 (.refl _) (update_of_not_mem _ (by simp)) ⟨l₁, rfl, hs.relink_last hlast⟩
  | prioLoad item => exact .quiet h 0 (.refl _) (fun _ _ => rfl) ho
  | prioRead item index =>
      obtain rfl : l = [item] := ho
      exact .quiet h 0 (.refl _) (update_of_not_mem _ (by simp)) ⟨rfl, by simp [step]⟩
  | prioCas item index nextItem =>
      obtain ⟨rfl, hn⟩ := ho
      simp only [step]
      split
      next hcas =>
        have hslot := h.seg (slot index)
        rw [hcas.1, ← hn] at hslot
        exact .at_head (m := item :: S (slot index)) (n := []) ⟨rfl, hslot⟩
          (by simpa using (List.perm_append_singleton item _).symm) (fun _ _ => rfl) ⟨rfl, by simp⟩
      next => exact .quiet h 0 (.refl _) (update_of_not_mem _ (by simp)) ⟨rfl, by simp⟩

/-- The control points of `put_items_list` and `put_priority_item`, which have
no item to return. -/
def Pc.Putting : Pc I → Prop
  | .getLoad | .getExchange _ _ | .getReload _ _ | .getAdd _ _ => False
  | .emptyLoad caller _ | .emptyCas caller _ _ _ | .emptyReload caller _ _ _
  | .emptyAdd caller _ => caller = .putItemsList
  | .occupiedAdd ret _ | .occupiedExchange ret _ _ | .occupiedFind ret _ _ _ _
  | .occupiedCas ret _ _ _ _ => ret = none
  | .prioLoad _ | .prioRead _ _ | .prioCas _ _ _ => True

/-- They stay among themselves and return nothing. -/
theorem step_putting (b : BoundBuffer I) (next : I → Option I) (spurious : Bool) {pc : Pc I}
    (h : pc.Putting) :
    match (step spurious b next pc).2.2 with
    | .goto pc' => pc'.Putting
    | .ret item _ => item = none := by
  cases pc with
  | getLoad => exact h.elim
  | getExchange => exact h.elim
  | getReload => exact h.elim
  | getAdd => exact h.elim
  | emptyLoad caller node => exact h
  | emptyCas caller node index i =>
      simp only [step]
      split_ifs <;> exact h
  | emptyReload caller node index i =>
      obtain rfl : caller = .putItemsList := h
      simp only [step]
      split_ifs <;> rfl
  | emptyAdd caller i =>
      obtain rfl : caller = .putItemsList := h
      rfl
  | occupiedAdd ret itemsList => exact h
  | occupiedExchange ret itemsList index =>
      obtain rfl : ret = none := h
      simp only [step]
      cases b.buffer (slot index) <;> rfl
  | occupiedFind ret itemsList index oldList lastItem =>
      simp only [step]
      cases next lastItem <;> exact h
  | occupiedCas ret itemsList index oldList lastItem =>
      obtain rfl : ret = none := h
      simp only [step]
      split_ifs <;> rfl
  | prioLoad item => trivial
  | prioRead item index => trivial
  | prioCas item index nextItem =>
      simp only [step]
      split_ifs <;> trivial

end BoundBuffer

/-! ## §3. `LockFreeQueue`. -/

namespace LockFreeQueue

/-- The seven places that hold a list. -/
inductive Cell where
  | slot (i : Fin bufferSize)
  | stack (i : Fin queueCount)
  deriving DecidableEq

def Cell.all : List Cell :=
  (List.finRange bufferSize).map .slot ++ (List.finRange queueCount).map .stack

theorem Cell.mem_all (c : Cell) : c ∈ all := by
  cases c <;> simp [all]

theorem Cell.nodup_all : all.Nodup := by decide

def head (q : LockFreeQueue I) : Cell → Option I
  | .slot i => q.itemBuffer.buffer i
  | .stack i => q.prioQueue i

/-- The nodes `l` of the thread at a control point. -/
def Pc.Owns (next : I → Option I) (l : List I) : Pc I → Prop
  | .getBuffer pc => pc.Owns next l
  | .pop _ => l = []
  | .putRest item pc =>
      pc.Putting ∧ next item = none ∧ ∃ rest, l = item :: rest ∧ pc.Owns next rest
  | .putPrio pc => pc.Putting ∧ pc.Owns next l
  | .push _ item .load => l = [item]
  | .push _ item (.cas head) => l = [item] ∧ next item = head

def Next.Owns (next : I → Option I) (l : List I) : Next I → Prop
  | .goto pc => pc.Owns next l
  | .ret item _ => l = item.toList ∧ ∀ x ∈ item, next x = none

omit [DecidableEq I] in
theorem Pc.Owns.congr {pc : Pc I} (h : pc.Owns next l) (hl : ∀ x ∈ l, next' x = next x) :
    pc.Owns next' l := by
  cases pc with
  | getBuffer pc => exact BoundBuffer.Pc.Owns.congr h hl
  | pop i => exact h
  | putRest item pc =>
      obtain ⟨hput, hn, rest, rfl, ho⟩ := h
      exact ⟨hput, (hl item (by simp)).trans hn, rest, rfl,
        ho.congr (fun x hx => hl x (by simp [hx]))⟩
  | putPrio pc => exact ⟨h.1, h.2.congr hl⟩
  | push i item pc =>
      cases pc with
      | load => exact h
      | cas head =>
          obtain ⟨rfl, hn⟩ := h
          exact ⟨rfl, (hl item (by simp)).trans hn⟩

omit [DecidableEq I] in
/-- `put_item` starts with the item alone. -/
theorem putItem_owns (item : I) (prio : UInt32) : (putItem item prio).Owns next [item] := by
  unfold putItem
  split
  · exact ⟨trivial, rfl⟩
  · rfl

variable {q : LockFreeQueue I} {S : Cell → List I}

omit [DecidableEq I] in
theorem local_buffer (h : Local q.head next S l) :
    Local q.itemBuffer.buffer next (fun i => S (.slot i)) l :=
  ⟨fun i => h.seg (.slot i), fun i => h.nodup (.slot i)⟩

omit [DecidableEq I] in
/-- A trade with a slot is a trade of the queue. -/
theorem trade_of_buffer {b' : BoundBuffer I}
    (h : Trade q.itemBuffer.buffer b'.buffer next next' (fun i => S (.slot i)) l owns) :
    Trade q.head ({ q with itemBuffer := b' } : LockFreeQueue I).head next next' S l owns := by
  obtain ⟨j, s', l', hk, hs, hp, hw, ho⟩ := h
  refine ⟨.slot j, s', l', ?_, hs, hp, hw, ho⟩
  rintro (i | i) hi
  · exact hk i (fun h => hi (h ▸ rfl))
  · rfl

omit [DecidableEq I] in
/-- Replacing the list of one stack. -/
theorem trade_of_stack {i : Fin queueCount} {v : Option I} {m n : List I}
    (hs : Seg next' v m none) (hp : (m ++ n).Perm (S (.stack i) ++ l))
    (hw : ∀ x, x ∉ n → next' x = next x) (ho : owns n) :
    Trade q.head
      ({ q with prioQueue := Function.update q.prioQueue i v } : LockFreeQueue I).head
      next next' S l owns := by
  refine ⟨.stack i, m, n, ?_, by simpa [head] using hs, hp, hw, ho⟩
  rintro (k | k) hk
  · rfl
  · have : k ≠ i := fun h => hk (h ▸ rfl)
    simp [head, this]

/-- **Every step inside `LockFreeQueue` is a trade with one list.** -/
theorem step_trade (spurious : Bool) {pc : Pc I} (h : Local q.head next S l)
    (ho : pc.Owns next l) :
    Trade q.head (step spurious q next pc).1.head next (step spurious q next pc).2.1 S l
      (fun l' => (step spurious q next pc).2.2.Owns (step spurious q next pc).2.1 l') := by
  cases pc with
  | getBuffer pc =>
      have ht := BoundBuffer.step_trade spurious (local_buffer h) ho
      refine trade_of_buffer (ht.imp (fun l' ho' => ?_))
      simp only [step]
      rcases hr : (q.itemBuffer.step spurious next pc).2.2 with pc' | ⟨_ | item, haveMore⟩
      · rw [hr] at ho'
        exact ho'
      · rw [hr] at ho'
        exact ho'.1
      · rw [hr] at ho'
        exact ho'
  | pop i =>
      obtain rfl : l = [] := ho
      have hs := h.seg (.stack i)
      rcases hi : q.prioQueue i with _ | item
      · rw [head, hi] at hs
        simp only [step, LockFreeStack.popList, hi]
        refine trade_of_stack (m := []) (n := []) rfl (by simp [hs.eq_nil.1]) (fun _ _ => rfl) ?_
        unfold nextPop
        split
        · rfl
        · exact ⟨rfl, by simp⟩
      · rw [head, hi] at hs
        obtain ⟨rest, hS, htail⟩ := hs.eq_cons
        have hitem : item ∉ rest := by
          have := h.nodup (.stack i)
          simp_all
        simp only [step, LockFreeStack.popList, hi]
        refine trade_of_stack (m := []) (n := item :: rest) rfl (by simp [hS])
          (update_of_not_mem none (by simp)) ?_
        rcases hn : next item with _ | itemsList
        · rw [hn] at htail
          simp [Next.Owns, htail.eq_nil.1]
        · rw [hn] at htail
          exact ⟨rfl, by simp, rest, rfl, htail.frame hitem none⟩
  | putRest item pc =>
      obtain ⟨hput, hn, rest, rfl, ho⟩ := ho
      have hrest : Local q.head next S rest :=
        ⟨h.seg, fun k => (h.nodup k).sublist (by simp)⟩
      obtain ⟨j, s', l', hk, hs, hp, hw, ho'⟩ :=
        BoundBuffer.step_trade spurious (local_buffer hrest) ho
      -- the item to return is apart from everything the step moves
      have hitem : item ∉ s' ++ l' := by
        intro hmem
        have hnodup := h.nodup (.slot j)
        have := hp.subset hmem
        rw [List.nodup_append] at hnodup
        rcases List.mem_append.mp this with hS | hl
        · exact hnodup.2.2 item hS item (by simp) rfl
        · exact (List.nodup_cons.mp hnodup.2.1).1 hl
      have hl' : item ∉ l' := fun hmem => hitem (List.mem_append_right _ hmem)
      refine trade_of_buffer ⟨j, s', item :: l', hk, hs, ?_, ?_, ?_⟩
      · calc s' ++ item :: l'
            |>.Perm (item :: (s' ++ l')) := List.perm_middle
          _ |>.Perm (item :: (S (.slot j) ++ rest)) := hp.cons item
          _ |>.Perm (S (.slot j) ++ item :: rest) := List.perm_middle.symm
      · exact fun x hx => hw x (fun hmem => hx (by simp [hmem]))
      · have hn' : (q.itemBuffer.step spurious next pc).2.1 item = none :=
          (hw item hl').trans hn
        have hput' := BoundBuffer.step_putting q.itemBuffer next spurious hput
        simp only [step]
        rcases hr : (q.itemBuffer.step spurious next pc).2.2 with pc' | ⟨ret, haveMore⟩
        · rw [hr] at hput' ho'
          exact ⟨hput', hn', l', rfl, ho'⟩
        · rw [hr] at hput' ho'
          obtain rfl : ret = none := hput'
          obtain rfl : l' = [] := ho'.1
          exact ⟨rfl, by simpa using hn'⟩
  | putPrio pc =>
      have ht := BoundBuffer.step_trade spurious (local_buffer h) ho.2
      have hput' := BoundBuffer.step_putting q.itemBuffer next spurious ho.1
      refine trade_of_buffer (ht.imp (fun l' ho' => ?_))
      simp only [step]
      rcases hr : (q.itemBuffer.step spurious next pc).2.2 with pc' | ⟨ret, haveMore⟩
      · rw [hr] at hput' ho'
        exact ⟨hput', ho'⟩
      · rw [hr] at hput' ho'
        obtain rfl : ret = none := hput'
        exact ho'
  | push i item pc =>
      have hs := h.seg (.stack i)
      cases pc with
      | load =>
          obtain rfl : l = [item] := ho
          refine trade_of_stack (h.frame (.stack i) ?_) (.refl _) ?_
            ⟨rfl, by simp [step, LockFreeStack.push]⟩
          · exact update_of_not_mem _ (by simp)
          · exact update_of_not_mem _ (by simp)
      | cas head =>
          obtain ⟨rfl, hn⟩ := ho
          simp only [step, LockFreeStack.push]
          split
          next hcas =>
            rw [LockFreeQueue.head, hcas.1, ← hn] at hs
            exact trade_of_stack (m := item :: S (.stack i)) (n := []) ⟨rfl, hs⟩
              (by simpa using (List.perm_append_singleton item _).symm) (fun _ _ => rfl)
              ⟨rfl, by simp⟩
          next =>
            refine trade_of_stack (h.frame (.stack i) ?_) (.refl _) ?_ ⟨rfl, by simp⟩
            · exact update_of_not_mem _ (by simp)
            · exact update_of_not_mem _ (by simp)

end LockFreeQueue

end Queue

end Alterstack
