/-
  Alterstack.Queue.Emptiness — what a null result of `get_item` means.

  `get_item` looks at the four slots and then at the three stacks, one after
  the other, and returns null when each was empty in its turn.  While a second
  `get_item` moves items about, an item may escape that scan: it is in the hands
  of the other thread, or stored behind the scan.  As long as calls of
  `get_item` do not overlap, it may not, however many threads put meanwhile: a
  `put_item` brings in its own item and moves no other.

  Main results:
    * `scanned_goto`, `scanned_null` — what the scan has seen at each point;
    * `pending_step` — a step leaves a stored item ahead of the scan, or returns
      it;
    * `null_after_stored` — null is returned only after every item that was
      stored before has been returned;
    * `null_overlapping` — with two calls at a time it is not so.
-/
import Alterstack.Queue.Progress
import Alterstack.Queue.Sequential

namespace Alterstack

namespace Queue

open Conservation (isPut)

variable {τ I : Type*}

/-! ## §1. The item of a `put_item`. -/

/-- The item of a `put_priority_item` in progress. -/
def prioItem : BoundBuffer.Pc I → Option I
  | .prioLoad item | .prioRead item _ | .prioCas item _ _ => some item
  | _ => none

/-- The item of a `put_item` in progress. -/
def putting : LockFreeQueue.Pc I → Option I
  | .putPrio pc => prioItem pc
  | .push _ item _ => some item
  | _ => none

theorem putting_putItem (item : I) (prio : UInt32) :
    putting (LockFreeQueue.putItem item prio) = some item := by
  unfold LockFreeQueue.putItem
  split <;> rfl

theorem isPut_of_putting {pc : LockFreeQueue.Pc I} {item : I} (h : putting pc = some item) :
    isPut pc = true := by
  cases pc with
  | putPrio => rfl
  | push => rfl
  | _ => cases h

/-- The thread inside `put_item` owns the item alone. -/
theorem owns_of_putting {pc : LockFreeQueue.Pc I} {next : I → Option I} {l : List I} {item : I}
    (ho : pc.Owns next l) (h : putting pc = some item) : l = [item] := by
  cases pc with
  | putPrio pc =>
      obtain ⟨-, ho⟩ := ho
      cases pc with
      | prioLoad =>
          cases h
          exact ho
      | prioRead =>
          cases h
          exact ho
      | prioCas =>
          cases h
          exact ho.1
      | _ => cases h
  | push i item' pc =>
      cases h
      cases pc with
      | load => exact ho
      | cas head => exact ho.1
  | _ => cases h

section Step

variable [DecidableEq I] {q : LockFreeQueue I} {next : I → Option I} {spurious : Bool}

theorem prioItem_storeTail {b : BoundBuffer I} {item : I} {i : UInt32} {itemsList : Option I}
    {pc' : BoundBuffer.Pc I} (h : (b.storeTail next item i itemsList).2.2 = .goto pc') :
    prioItem pc' = none := by
  unfold BoundBuffer.storeTail at h
  split at h
  · cases itemsList <;> cases h
    rfl
  · cases h
    rfl

/-- `put_priority_item` goes on with its item, the other functions have none. -/
theorem prioItem_step {b : BoundBuffer I} {pc pc' : BoundBuffer.Pc I}
    (h : (b.step spurious next pc).2.2 = .goto pc') : prioItem pc' = prioItem pc := by
  cases pc with
  | prioCas item index nextItem =>
      simp only [BoundBuffer.step] at h
      split at h <;> cases h
      rfl
  | getExchange index i =>
      simp only [BoundBuffer.step] at h
      split at h <;> cases h <;> rfl
  | getReload index i =>
      simp only [BoundBuffer.step] at h
      split_ifs at h <;> cases h <;> rfl
  -- an item with a list behind it starts `store_tail`
  | getAdd i item =>
      simp only [BoundBuffer.step] at h
      split at h
      · cases h
      · exact prioItem_storeTail h
  | emptyCas caller node index i =>
      simp only [BoundBuffer.step] at h
      split at h <;> cases h <;> rfl
  | emptyReload caller node index i =>
      simp only [BoundBuffer.step] at h
      split_ifs at h
      · cases h
        rfl
      · cases h
        rfl
      · cases caller <;> cases h <;> rfl
  | emptyAdd caller i =>
      cases caller with
      | putItemsList => cases h
      | storeTail item i itemsList => exact prioItem_storeTail h
  | occupiedExchange ret itemsList index =>
      simp only [BoundBuffer.step] at h
      split at h
      · cases ret <;> cases h
      · cases h
        rfl
  | occupiedFind ret itemsList index oldList lastItem =>
      simp only [BoundBuffer.step] at h
      split at h <;> cases h <;> rfl
  | occupiedCas ret itemsList index oldList lastItem =>
      simp only [BoundBuffer.step] at h
      split at h
      · cases ret <;> cases h
      · cases h
        rfl
  | _ =>
      cases h
      rfl

/-- A call of the queue stays the call it is. -/
theorem putting_step {pc pc' : LockFreeQueue.Pc I}
    (h : (q.step spurious next pc).2.2 = .goto pc') : putting pc' = putting pc := by
  cases pc with
  | getBuffer pc =>
      simp only [LockFreeQueue.step] at h
      split at h <;> cases h <;> rfl
  | pop i =>
      simp only [LockFreeQueue.step] at h
      split at h
      · unfold LockFreeQueue.nextPop at h
        split at h <;> cases h
        rfl
      · split at h <;> cases h
        rfl
  | putRest item pc =>
      simp only [LockFreeQueue.step] at h
      split at h <;> cases h
      rfl
  | putPrio pc =>
      simp only [LockFreeQueue.step] at h
      split at h
      next pc'' hpc =>
        cases h
        exact prioItem_step hpc
      next => cases h
  | push i item pc =>
      simp only [LockFreeQueue.step] at h
      split at h <;> cases h
      rfl

end Step

/-! ## §2. What the scan has seen. -/

namespace BoundBuffer

/-- The slots that the scan of `get_item` has found empty. -/
def Pc.scanned : Pc I → Fin bufferSize → Prop
  | .getExchange index i, k => ∃ j, j < i ∧ slot (index + j) = k
  | .getReload index i, k => ∃ j, j ≤ i ∧ slot (index + j) = k
  | _, _ => False

/-- Four slots in a row are all slots. -/
theorem exists_slot (index : UInt32) (k : Fin bufferSize) :
    ∃ j : UInt32, j ≤ 3 ∧ slot (index + j) = k := by
  have hle : ∀ j : UInt32, j.toNat ≤ 3 → j ≤ 3 := fun _ hj => UInt32.le_iff_toNat_le.mpr hj
  have hall : ∀ p k : Fin bufferSize,
      p + slot 0 = k ∨ p + slot 1 = k ∨ p + slot 2 = k ∨ p + slot 3 = k := by decide
  rcases hall (slot index) k with hj | hj | hj | hj
  · exact ⟨0, hle 0 (by decide), (slot_add index 0).trans hj⟩
  · exact ⟨1, hle 1 (by decide), (slot_add index 1).trans hj⟩
  · exact ⟨2, hle 2 (by decide), (slot_add index 2).trans hj⟩
  · exact ⟨3, hle 3 (by decide), (slot_add index 3).trans hj⟩

variable [DecidableEq I] {b : BoundBuffer I} {next : I → Option I} {spurious : Bool}
  {pc pc' : Pc I} {k : Fin bufferSize} {l : List I}

/-- `store_tail` scans nothing. -/
theorem scanned_storeTail {item : I} {i : UInt32} {itemsList : Option I}
    (h : (storeTail b next item i itemsList).2.2 = .goto pc') : ¬ pc'.scanned k := by
  unfold storeTail at h
  split at h
  · cases itemsList <;> cases h
    exact id
  · cases h
    exact id

theorem scanned_emptyFailed {node : I} {caller : Caller I}
    (h : (emptyFailed b next node caller).2.2 = .goto pc') : ¬ pc'.scanned k := by
  cases caller <;> cases h <;> exact id

/-- A slot is added to the scan when it is found empty; a thread that scans has
nothing in hand. -/
theorem scanned_goto (ho : pc.Owns next l) (h : (b.step spurious next pc).2.2 = .goto pc')
    (hk : pc'.scanned k) : l = [] ∧ (pc.scanned k ∨ b.buffer k = none) := by
  cases pc with
  | getLoad =>
      cases h
      obtain ⟨j, hj, -⟩ := hk
      exact absurd hj (by simp)
  | getExchange index i =>
      refine ⟨ho, ?_⟩
      simp only [step] at h
      split at h <;> cases h
      next => exact hk.elim
      next hnone =>
        obtain ⟨j, hj, hslot⟩ := hk
        rcases UInt32.lt_or_eq_of_le hj with hlt | heq
        · exact .inl ⟨j, hlt, hslot⟩
        · subst heq
          exact .inr (hslot ▸ hnone)
  | getReload index i =>
      refine ⟨ho, .inl ?_⟩
      simp only [step] at h
      split_ifs at h <;> cases h
      · obtain ⟨j, hj, -⟩ := hk
        exact absurd hj (by simp)
      · obtain ⟨j, hj, hslot⟩ := hk
        refine ⟨j, ?_, hslot⟩
        rw [UInt32.lt_iff_toNat_lt] at hj
        rw [UInt32.le_iff_toNat_le]
        have := UInt32.toNat_add i 1
        have h1 : (1 : UInt32).toNat = 1 := rfl
        omega
  | getAdd i item =>
      simp only [step] at h
      split at h
      · cases h
      · exact absurd hk (scanned_storeTail h)
  | emptyLoad caller node =>
      cases h
      exact hk.elim
  | emptyCas caller node index i =>
      simp only [step] at h
      split at h <;> cases h <;> exact hk.elim
  | emptyReload caller node index i =>
      simp only [step] at h
      split_ifs at h
      · cases h
        exact hk.elim
      · cases h
        exact hk.elim
      · exact absurd hk (scanned_emptyFailed h)
  | emptyAdd caller i =>
      cases caller with
      | putItemsList => cases h
      | storeTail item j itemsList => exact absurd hk (scanned_storeTail h)
  | occupiedAdd ret itemsList =>
      cases h
      exact hk.elim
  | occupiedExchange ret itemsList index =>
      simp only [step] at h
      split at h
      · exact absurd h (occupiedStored_returns _ _ _ _)
      · cases h
        exact hk.elim
  | occupiedFind ret itemsList index oldList lastItem =>
      simp only [step] at h
      split at h <;> cases h <;> exact hk.elim
  | occupiedCas ret itemsList index oldList lastItem =>
      simp only [step] at h
      split at h
      · exact absurd h (occupiedStored_returns _ _ _ _)
      · cases h
        exact hk.elim
  | prioLoad item =>
      cases h
      exact hk.elim
  | prioRead item index =>
      cases h
      exact hk.elim
  | prioCas item index nextItem =>
      simp only [step] at h
      split at h <;> cases h
      exact hk.elim

/-- `get_item` of the buffer returns null after it has scanned all slots. -/
theorem scanned_null {haveMore : Bool} (hproper : pc.Proper) (hget : pc.Getting)
    (ho : pc.Owns next l) (h : (b.step spurious next pc).2.2 = .ret none haveMore)
    (k : Fin bufferSize) : l = [] ∧ pc.scanned k := by
  have hfinish : ∀ (b' : BoundBuffer I) (next' : I → Option I) (ret : Option I), ret ≠ none →
      (occupiedStored b' next' ret).2.2 ≠ .ret none haveMore := by
    intro b' next' ret hret hn
    cases ret with
    | none => exact hret rfl
    | some item => cases hn
  have htail : ∀ (b' : BoundBuffer I) (item : I) (i : UInt32) (itemsList : Option I),
      (storeTail b' next item i itemsList).2.2 ≠ .ret none haveMore := by
    intro b' item i itemsList hn
    unfold storeTail at hn
    split at hn
    · cases itemsList <;> cases hn
    · cases hn
  cases pc with
  | getLoad => cases h
  | getExchange index i =>
      simp only [step] at h
      split at h <;> cases h
  | getReload index i =>
      refine ⟨ho, ?_⟩
      simp only [step] at h
      split_ifs at h with hmoved hi
      obtain ⟨j, hj, hslot⟩ := exists_slot index k
      refine ⟨j, ?_, hslot⟩
      -- the last round is the fourth
      have hi4 : i < 4 := hproper
      rw [UInt32.lt_iff_toNat_lt] at hi hi4
      rw [UInt32.le_iff_toNat_le] at hj ⊢
      have hadd := UInt32.toNat_add i 1
      have h1 : (1 : UInt32).toNat = 1 := rfl
      have h3 : (3 : UInt32).toNat = 3 := rfl
      have h4 : (4 : UInt32).toNat = 4 := rfl
      omega
  | getAdd i item =>
      simp only [step] at h
      split at h
      · cases h
      · exact absurd h (htail _ _ _ _)
  | emptyLoad caller node => cases h
  | emptyCas caller node index i =>
      simp only [step] at h
      split at h <;> cases h
  | emptyReload caller node index i =>
      simp only [step] at h
      split_ifs at h
      cases caller <;> cases h
  | emptyAdd caller i =>
      cases caller with
      | putItemsList => exact absurd rfl hget
      | storeTail item j itemsList => exact absurd h (htail _ _ _ _)
  | occupiedAdd ret itemsList => cases h
  | occupiedExchange ret itemsList index =>
      simp only [step] at h
      split at h
      · exact absurd h (hfinish _ _ _ hget)
      · cases h
  | occupiedFind ret itemsList index oldList lastItem =>
      simp only [step] at h
      split at h <;> cases h
  | occupiedCas ret itemsList index oldList lastItem =>
      simp only [step] at h
      split at h
      · exact absurd h (hfinish _ _ _ hget)
      · cases h
  | prioLoad item => exact hget.elim
  | prioRead item index => exact hget.elim
  | prioCas item index nextItem => exact hget.elim

end BoundBuffer

namespace LockFreeQueue

/-- The lists that the scan of `get_item` has found empty. -/
def Pc.scanned : Pc I → Cell → Prop
  | .getBuffer pc, .slot k => pc.scanned k
  | .pop _, .slot _ => True
  | .pop i, .stack k => k < i
  | _, _ => False

/-- `put_item` scans nothing. -/
theorem not_scanned_of_isPut {pc : Pc I} {c : Cell} (h : isPut pc = true) : ¬ pc.scanned c := by
  intro hc
  cases pc with
  | putPrio => cases c <;> exact hc
  | push => cases c <;> exact hc
  | _ => cases h

variable [DecidableEq I] {q : LockFreeQueue I} {next : I → Option I} {spurious : Bool}
  {pc pc' : Pc I} {c : Cell} {l : List I}

/-- A list is added to the scan when it is found empty; a thread that scans has
nothing in hand. -/
theorem scanned_goto (hproper : pc.Proper) (ho : pc.Owns next l)
    (h : (q.step spurious next pc).2.2 = .goto pc') (hc : pc'.scanned c) :
    l = [] ∧ (pc.scanned c ∨ q.head c = none) := by
  cases pc with
  | getBuffer pc =>
      simp only [step] at h
      split at h
      next pc'' hr =>
        cases h
        cases c with
        | slot k => exact BoundBuffer.scanned_goto ho hr hc
        | stack k => exact hc.elim
      next => cases h
      next hr =>
        cases h
        have hall := BoundBuffer.scanned_null hproper.1 hproper.2 ho hr
        cases c with
        | slot k => exact ⟨(hall k).1, .inl (hall k).2⟩
        | stack k => exact absurd hc (Nat.not_lt_zero k.val)
  | pop i =>
      refine ⟨ho, ?_⟩
      simp only [step, LockFreeStack.popList] at h
      cases hi : q.prioQueue i with
      | some item =>
          simp only [hi] at h
          cases hn : next item with
          | none =>
              rw [hn] at h
              cases h
          | some itemsList =>
              rw [hn] at h
              cases h
              cases c <;> exact hc.elim
      | none =>
          simp only [hi, nextPop] at h
          split at h <;> cases h
          cases c with
          | slot k => exact .inl trivial
          | stack k =>
              have hk : k.val < i.val + 1 := hc
              by_cases hlt : k < i
              · exact .inl hlt
              · have hki : k = i := Fin.ext (by omega)
                subst hki
                exact .inr hi
  | putRest item pc =>
      simp only [step] at h
      split at h <;> cases h
      cases c <;> exact hc.elim
  | putPrio pc =>
      simp only [step] at h
      split at h <;> cases h
      cases c <;> exact hc.elim
  | push i item pc =>
      simp only [step] at h
      split at h <;> cases h
      cases c <;> exact hc.elim

/-- `get_item` returns null after it has scanned all lists. -/
theorem scanned_null {haveMore : Bool} (hget : isPut pc = false) (ho : pc.Owns next l)
    (h : (q.step spurious next pc).2.2 = .ret none haveMore) :
    l = [] ∧ (pc.scanned c ∨ q.head c = none) := by
  cases pc with
  | getBuffer pc =>
      simp only [step] at h
      split at h <;> cases h
  | pop i =>
      refine ⟨ho, ?_⟩
      simp only [step, LockFreeStack.popList] at h
      cases hi : q.prioQueue i with
      | some item =>
          simp only [hi] at h
          cases hn : next item with
          | none =>
              rw [hn] at h
              cases h
          | some itemsList =>
              rw [hn] at h
              cases h
      | none =>
          simp only [hi, nextPop] at h
          split at h
          · cases h
          next hlast =>
            cases c with
            | slot k => exact .inl trivial
            | stack k =>
                have hk := k.isLt
                by_cases hlt : k < i
                · exact .inl hlt
                · have hki : k = i := Fin.ext (by omega)
                  subst hki
                  exact .inr hi
  | putRest item pc =>
      simp only [step] at h
      split at h <;> cases h
  | putPrio pc => cases hget
  | push i item pc => cases hget

end LockFreeQueue

end Queue

namespace Emptiness

open Lib (Seg Layout Machine)
open Queue LockFreeQueue
open Conservation (State Label Event Inv holder isPut afterRun returnEvent)

variable {τ I : Type*} {s s' : State τ I} {x : I} {c : Cell}

/-! ## §3. Where an item lies. -/

/-- The item is in the list of the cell. -/
def Lies (s : State τ I) (c : Cell) (x : I) : Prop :=
  ∃ l, Seg s.next (s.queue.head c) l none ∧ x ∈ l

theorem not_lies_of_null (h : s.queue.head c = none) : ¬ Lies s c x := by
  rintro ⟨l, hl, hx⟩
  rw [h] at hl
  rw [hl.eq_nil.1] at hx
  cases hx

variable [DecidableEq I] {L : Layout (Conservation.Place τ) I} {t : τ} {pc : Pc I}

theorem lies_iff (h : Inv s L) : Lies s c x ↔ x ∈ L.at_ (.cell c) := by
  constructor
  · rintro ⟨l, hl, hx⟩
    rwa [(h.cells c).unique hl] at hx
  · intro hx
    exact ⟨_, h.cells c, hx⟩

/-- What a thread inside a call has in hand. -/
theorem owns_of_thread (h : Inv s L) (hpc : s.thread t = some pc) :
    pc.Owns s.next (L.at_ (.own t)) := by
  have := h.threads t
  rwa [hpc] at this

variable [DecidableEq τ]

/-- A thread puts nothing into a cell but what it has in hand. -/
theorem lies_run (h : Inv s L) (hpc : s.thread t = some pc) {spurious : Bool}
    (hx : Lies (afterRun s t pc (s.queue.step spurious s.next pc)) c x) :
    Lies s c x ∨ x ∈ L.at_ (.own t) := by
  have howns := owns_of_thread h hpc
  obtain ⟨j, l₁, l₂, hk, hs, hp, hw, -⟩ := step_trade spurious (h.toLocal t) howns
  obtain ⟨l, hl, hx⟩ := hx
  by_cases hc : c = j
  · subst hc
    have hl₁ : l = l₁ := hs.unique hl
    subst hl₁
    rcases List.mem_append.mp (hp.subset (List.mem_append_left l₂ hx)) with hm | hm
    · exact .inl ((lies_iff h).mpr hm)
    · exact .inr hm
  · -- the cell keeps its list
    have hframe : Seg (s.queue.step spurious s.next pc).2.1 (s.queue.head c) (L.at_ (.cell c))
        none := by
      refine (h.cells c).congr fun y hy => hw y fun hmem => ?_
      rcases List.mem_append.mp (hp.subset (List.mem_append_right l₁ hmem)) with hm | hm
      · exact hc (Conservation.Place.cell.inj (L.excl hy hm))
      · cases L.excl hy hm
    have hcell : l = L.at_ (.cell c) := hframe.unique (hk c hc ▸ hl)
    exact .inl ((lies_iff h).mpr (hcell ▸ hx))

/-- Every `put_item` in progress has its item. -/
theorem putting_of_isPut (h : (Conservation.machine τ I).Reachable s) :
    ∀ t pc, s.thread t = some pc → isPut pc = true → ∃ y, putting pc = some y := by
  refine h.invariant
    (I := fun s => ∀ t pc, s.thread t = some pc → isPut pc = true → ∃ y, putting pc = some y) ?_ ?_
  · rintro s rfl t pc ht
    cases ht
  · intro s l s' hs _ hstep u pc hu hput
    cases l with
    | putItem t y prio =>
        obtain ⟨-, -, -, rfl⟩ := Conservation.step_putItem hstep
        by_cases hut : u = t
        · subst hut
          simp only [Function.update_self, Option.some.injEq] at hu
          exact ⟨y, hu ▸ putting_putItem y prio⟩
        · exact hs u pc (by simpa [hut] using hu) hput
    | getItem t =>
        obtain ⟨-, rfl⟩ := Conservation.step_getItem hstep
        by_cases hut : u = t
        · subst hut
          simp only [Function.update_self, Option.some.injEq] at hu
          rw [← hu] at hput
          cases hput
        · exact hs u pc (by simpa [hut] using hu) hput
    | run t spurious =>
        obtain ⟨pc₀, hpc₀, rfl⟩ := Conservation.step_run hstep
        by_cases hut : u = t
        · subst hut
          cases hr : (s.queue.step spurious s.next pc₀).2.2 with
          | ret item more => simp [afterRun, hr] at hu
          | goto pc' =>
              simp only [afterRun, hr, Function.update_self, Option.some.injEq] at hu
              subst hu
              rw [putting_step hr]
              exact hs u pc₀ hpc₀ ((Sequential.isPut_goto hr).symm.trans hput)
        · exact hs u pc (by simpa [afterRun, hut] using hu) hput
    | setNext y v =>
        obtain ⟨-, rfl⟩ := Conservation.step_setNext hstep
        exact hs u pc hu hput

/-! ## §4. An item ahead of the scan. -/

/-- A call of `get_item` begins while no other is in progress. -/
def GetsApart (s : State τ I) : Label τ I → Prop
  | .getItem _ => ∀ u pc, s.thread u = some pc → isPut pc = true
  | _ => True

instance [Fintype τ] (s : State τ I) : (l : Label τ I) → Decidable (GetsApart s l)
  | .getItem _ => inferInstanceAs (Decidable (∀ u, ∀ pc ∈ s.thread u, isPut pc = true))
  | .putItem _ _ _ | .run _ _ | .setNext _ _ => .isTrue trivial

/-- The item is stored, at most one call of `get_item` is in progress, and its
scan has not passed the item. -/
structure Pending (s : State τ I) (x : I) : Prop where
  queued : holder s.log x = .queued
  stored : ∀ u pc, s.thread u = some pc → putting pc ≠ some x
  apart : ∀ u v pc pc', s.thread u = some pc → s.thread v = some pc' → isPut pc = false →
    isPut pc' = false → u = v
  ahead : ∀ u pc c, s.thread u = some pc → pc.scanned c → ¬ Lies s c x

def isNull : Event τ I → Bool
  | .got _ none _ => true
  | .got _ (some _) _ => false
  | .put _ _ _ => false
  | .stored _ => false
  | .wrote _ _ => false

/-- A step leaves the item ahead of the scan and returns no null, or it returns
the item. -/
inductive PendingStep (s s' : State τ I) (x : I) : Prop
  | quiet (hlog : s'.log = s.log) (h : Pending s' x)
  | event (e : Event τ I) (hlog : s'.log = e :: s.log) (he : isNull e = false)
      (h : Pending s' x)
  | returned (u : τ) (more : Bool) (hlog : s'.log = .got u (some x) more :: s.log)

omit [DecidableEq τ] in
/-- While one thread is inside `get_item`, the others are not. -/
theorem Pending.others (h : Pending s x) (hpc : s.thread t = some pc) (hget : isPut pc = false)
    {u : τ} {pc' : Pc I} (hut : u ≠ t) (hu : s.thread u = some pc') : isPut pc' = true := by
  by_contra hnot
  exact hut (h.apart u t pc' pc hu hpc (by simpa using hnot) hget)

/-- A thread whose point has changed, or that has returned. -/
theorem Pending.update (h : Pending s x) {o : Option (Pc I)} (hqueued : holder s'.log x = .queued)
    (hthread : s'.thread = Function.update s.thread t o)
    (hstored : ∀ pc, o = some pc → putting pc ≠ some x)
    (hapart : ∀ pc, o = some pc → isPut pc = false →
      ∀ u pc', u ≠ t → s.thread u = some pc' → isPut pc' = true)
    (hlies : ∀ u pc c, u ≠ t → s.thread u = some pc → pc.scanned c → Lies s' c x → Lies s c x)
    (hahead : ∀ pc c, o = some pc → pc.scanned c → ¬ Lies s' c x) : Pending s' x where
  queued := hqueued
  stored := by
    intro u pc hu
    rw [hthread] at hu
    by_cases hut : u = t
    · subst hut
      exact hstored pc (by simpa using hu)
    · exact h.stored u pc (by simpa [hut] using hu)
  apart := by
    intro u v pc pc' hu hv hpc hpc'
    rw [hthread] at hu hv
    by_cases hut : u = t
    · subst hut
      by_cases hvu : v = u
      · exact hvu.symm
      · have := hapart pc (by simpa using hu) hpc v pc' hvu (by simpa [hvu] using hv)
        rw [hpc'] at this
        cases this
    · by_cases hvt : v = t
      · subst hvt
        have := hapart pc' (by simpa using hv) hpc' u pc hut (by simpa [hut] using hu)
        rw [hpc] at this
        cases this
      · exact h.apart u v pc pc' (by simpa [hut] using hu) (by simpa [hvt] using hv) hpc hpc'
  ahead := by
    intro u pc c hu hc hx
    rw [hthread] at hu
    by_cases hut : u = t
    · subst hut
      exact hahead pc c (by simpa using hu) hc hx
    · have hu' : s.thread u = some pc := by simpa [hut] using hu
      exact h.ahead u pc c hu' hc (hlies u pc c hut hu' hc hx)

/-- A call of `put_item` of another item begins. -/
theorem pending_putItem (hp : Pending s x) {y : I} {prio : UInt32}
    (hstep : Conservation.step s (.putItem t y prio) = some s') : PendingStep s s' x := by
  obtain ⟨-, hout, -, rfl⟩ := Conservation.step_putItem hstep
  have hxy : x ≠ y := by
    intro hxy
    have hq := hp.queued
    rw [hxy] at hq
    rcases hout with ho | ho <;> rw [ho] at hq <;> cases hq
  have hput : isPut (putItem y prio) = true := isPut_of_putting (putting_putItem y prio)
  refine .event _ rfl rfl (hp.update ?_ rfl ?_ ?_ ?_ ?_)
  · show holder (.put t y prio :: s.log) x = .queued
    simp only [holder, if_neg hxy, hp.queued]
  · intro pc hpc hx
    cases hpc
    rw [putting_putItem] at hx
    exact hxy (Option.some.inj hx).symm
  · intro pc hpc hget
    cases hpc
    rw [hput] at hget
    cases hget
  · exact fun _ _ _ _ _ _ hx => hx
  · intro pc c hpc hc
    cases hpc
    exact absurd hc (not_scanned_of_isPut hput)

/-- A call of `get_item` begins its scan. -/
theorem pending_getItem (hp : Pending s x) (hok : GetsApart s (.getItem t))
    (hstep : Conservation.step s (.getItem t) = some s') : PendingStep s s' x := by
  obtain ⟨-, rfl⟩ := Conservation.step_getItem hstep
  refine .quiet rfl (hp.update hp.queued rfl ?_ ?_ ?_ ?_)
  · intro pc hpc hx
    cases hpc
    cases hx
  · exact fun _ _ _ u pc' _ hu => hok u pc' hu
  · exact fun _ _ _ _ _ _ hx => hx
  · intro pc c hpc hc
    cases hpc
    cases c <;> exact hc.elim

theorem pending_setNext (hinv : Inv s L) (hp : Pending s x) {y : I} {v : Option I}
    (hstep : Conservation.step s (.setNext y v) = some s') : PendingStep s s' x := by
  obtain ⟨hout, rfl⟩ := Conservation.step_setNext hstep
  refine .event _ rfl rfl ⟨hp.queued, hp.stored, hp.apart, ?_⟩
  intro u pc c hu hc hx
  refine hp.ahead u pc c hu hc ?_
  obtain ⟨l, hl, hx⟩ := hx
  -- the written item is in no cell
  have hframe : Seg (Function.update s.next y v) (s.queue.head c) (L.at_ (.cell c)) none := by
    refine (hinv.cells c).frame (fun hy => ?_) v
    exact hout ((hinv.queued y).mp ⟨.cell c, hy⟩)
  have hcell : l = L.at_ (.cell c) := hframe.unique hl
  exact (lies_iff hinv).mpr (hcell ▸ hx)

/-- A step of a `put_item` of another item. -/
theorem pending_put (hinv : Inv s L) (hp : Pending s x) {spurious : Bool} {y : I}
    (hpc : s.thread t = some pc) (hy : putting pc = some y) :
    PendingStep s (afterRun s t pc (s.queue.step spurious s.next pc)) x := by
  have hput := isPut_of_putting hy
  have hown : L.at_ (.own t) = [y] := owns_of_putting (owns_of_thread hinv hpc) hy
  have hlies : ∀ c, Lies (afterRun s t pc (s.queue.step spurious s.next pc)) c x →
      Lies s c x := by
    intro c hx
    rcases lies_run hinv hpc hx with hx | hx
    · exact hx
    · rw [hown, List.mem_singleton] at hx
      exact absurd (hx ▸ hy) (hp.stored t pc hpc)
  cases hr : (s.queue.step spurious s.next pc).2.2 with
  | goto pc' =>
      have hput' := (Sequential.isPut_goto hr).trans hput
      refine .quiet (by simp [afterRun, hr]) (hp.update (t := t) (o := some pc') ?_ ?_ ?_ ?_ ?_ ?_)
      · simpa [afterRun, hr] using hp.queued
      · simp [afterRun, hr]
      · intro pc'' hpc''
        cases hpc''
        rw [putting_step hr]
        exact hp.stored t pc hpc
      · intro pc'' hpc'' hget
        cases hpc''
        rw [hput'] at hget
        cases hget
      · exact fun _ _ c _ _ _ hx => hlies c hx
      · intro pc'' c hpc'' hc
        cases hpc''
        exact absurd hc (not_scanned_of_isPut hput')
  | ret item more =>
      have hlog : (afterRun s t pc (s.queue.step spurious s.next pc)).log = .stored t :: s.log := by
        simp [afterRun, hr, returnEvent, hput]
      refine .event _ hlog rfl
        (hp.update (t := t) (o := none) ?_ ?_ ?_ ?_ ?_ ?_)
      · rw [hlog]
        exact hp.queued
      · simp [afterRun, hr]
      · exact fun _ hpc'' => by cases hpc''
      · exact fun _ hpc'' => by cases hpc''
      · exact fun _ _ c _ _ _ hx => hlies c hx
      · exact fun _ _ hpc'' => by cases hpc''

omit [DecidableEq τ] in
/-- The scan finds an item that is stored. -/
theorem Pending.not_null (hp : Pending s x) (hinv : Inv s L)
    (hputs : ∀ u pc, s.thread u = some pc → isPut pc = true → ∃ y, putting pc = some y)
    (hpc : s.thread t = some pc) (hget : isPut pc = false) {spurious more : Bool} :
    (s.queue.step spurious s.next pc).2.2 ≠ .ret none more := by
  intro hr
  have howns := owns_of_thread hinv hpc
  obtain ⟨p, hx⟩ := (hinv.queued x).mpr hp.queued
  cases p with
  | cell c =>
      have hlies : Lies s c x := (lies_iff hinv).mpr hx
      rcases (scanned_null (c := c) hget howns hr).2 with hc | hnull
      · exact hp.ahead t pc c hpc hc hlies
      · exact not_lies_of_null hnull hlies
  | own u =>
      by_cases hut : u = t
      · subst hut
        rw [(scanned_null (c := .stack 0) hget howns hr).1] at hx
        cases hx
      · have hu := hinv.threads u
        cases hthread : s.thread u with
        | none =>
            rw [hthread] at hu
            rw [show L.at_ (.own u) = [] from hu] at hx
            cases hx
        | some pc' =>
            -- another thread has the item of its `put_item` in hand, and no other
            obtain ⟨y, hy⟩ := hputs u pc' hthread (hp.others hpc hget hut hthread)
            rw [owns_of_putting (owns_of_thread hinv hthread) hy, List.mem_singleton] at hx
            exact hp.stored u pc' hthread (hx ▸ hy)

/-- A step of the `get_item` in progress. -/
theorem pending_get (hinv : Inv s L) (hp : Pending s x) {spurious : Bool} (hproper : pc.Proper)
    (hputs : ∀ u pc, s.thread u = some pc → isPut pc = true → ∃ y, putting pc = some y)
    (hpc : s.thread t = some pc) (hget : isPut pc = false) :
    PendingStep s (afterRun s t pc (s.queue.step spurious s.next pc)) x := by
  have hothers : ∀ u pc', u ≠ t → s.thread u = some pc' → isPut pc' = true :=
    fun _ _ hut hu => hp.others hpc hget hut hu
  have hscans : ∀ u pc' c, u ≠ t → s.thread u = some pc' → ¬ pc'.scanned c :=
    fun u pc' _ hut hu => not_scanned_of_isPut (hothers u pc' hut hu)
  cases hr : (s.queue.step spurious s.next pc).2.2 with
  | goto pc' =>
      have howns := owns_of_thread hinv hpc
      refine .quiet (by simp [afterRun, hr])
        (hp.update (t := t) (o := some pc') ?_ ?_ ?_ ?_ ?_ ?_)
      · simpa [afterRun, hr] using hp.queued
      · simp [afterRun, hr]
      · intro pc'' hpc''
        cases hpc''
        rw [putting_step hr]
        exact hp.stored t pc hpc
      · exact fun _ _ _ u pc'' hut hu => hothers u pc'' hut hu
      · exact fun u pc'' c hut hu hc _ => absurd hc (hscans u pc'' c hut hu)
      · intro pc'' c hpc'' hc hx
        cases hpc''
        obtain ⟨hown, hseen⟩ := scanned_goto hproper howns hr hc
        have hlies : Lies s c x := by
          rcases lies_run hinv hpc hx with hx | hx
          · exact hx
          · rw [hown] at hx
            cases hx
        rcases hseen with hc | hnull
        · exact hp.ahead t pc c hpc hc hlies
        · exact not_lies_of_null hnull hlies
  | ret item more =>
      cases item with
      | none => exact absurd hr (hp.not_null hinv hputs hpc hget)
      | some y =>
          have hlog : (afterRun s t pc (s.queue.step spurious s.next pc)).log =
              .got t (some y) more :: s.log := by
            simp [afterRun, hr, returnEvent, hget]
          by_cases hxy : x = y
          · subst hxy
            exact .returned t more hlog
          · refine .event _ hlog rfl
              (hp.update (t := t) (o := none) ?_ ?_ ?_ ?_ ?_ ?_)
            · rw [hlog]
              simpa [holder, Ne.symm hxy] using hp.queued
            · simp [afterRun, hr]
            · exact fun _ hpc'' => by cases hpc''
            · exact fun _ hpc'' => by cases hpc''
            · exact fun u pc'' c hut hu hc _ => absurd hc (hscans u pc'' c hut hu)
            · exact fun _ _ hpc'' => by cases hpc''

/-- **A step leaves a stored item ahead of the scan, or returns it.** -/
theorem pending_step (h : (Conservation.machine τ I).Reachable s) (hp : Pending s x)
    {l : Label τ I} (hok : GetsApart s l) (hstep : Conservation.step s l = some s') :
    PendingStep s s' x := by
  obtain ⟨L, hinv⟩ := Conservation.inv_reachable h
  cases l with
  | putItem t y prio => exact pending_putItem hp hstep
  | getItem t => exact pending_getItem hp hok hstep
  | setNext y v => exact pending_setNext hinv hp hstep
  | run t spurious =>
      obtain ⟨pc, hpc, rfl⟩ := Conservation.step_run hstep
      cases hget : isPut pc with
      | true =>
          obtain ⟨y, hy⟩ := putting_of_isPut h t pc hpc hget
          exact pending_put hinv hp hpc hy
      | false =>
          exact pending_get hinv hp (Progress.proper_reachable h t pc hpc) (putting_of_isPut h) hpc
            hget

/-! ## §5. Null results. -/

/-- Each null result comes after the item has been returned. -/
def NullAfter (x : I) : List (Event τ I) → Prop
  | [] => True
  | e :: log => (isNull e = true → ∃ u more, .got u (some x) more ∈ log) ∧ NullAfter x log

/-- What is known of an item that was stored at the beginning: no null was returned
before it, and it is still ahead of the scan or has been returned. -/
structure Awaited (s : State τ I) (evs : List (Event τ I)) (x : I) : Prop where
  nullAfter : NullAfter x evs
  pending : Pending s x ∨ ∃ u more, Event.got u (some x) more ∈ evs

omit [DecidableEq τ] in
/-- A step that adds nothing to the log. -/
theorem Awaited.quiet {evs : List (Event τ I)} (h : Awaited s evs x)
    (hstep : Pending s x → PendingStep s s' x) (hlog : s'.log = s.log) : Awaited s' evs x := by
  refine ⟨h.nullAfter, ?_⟩
  rcases h.pending with hp | hgot
  · left
    cases hstep hp with
    | quiet _ hp' => exact hp'
    | event e hw _ _ => exact absurd (hw.symm.trans hlog) (List.cons_ne_self e s.log)
    | returned u more hw => exact absurd (hw.symm.trans hlog) (List.cons_ne_self _ s.log)
  · exact .inr hgot

omit [DecidableEq τ] in
/-- A step that adds an event: it is no null as long as the item is ahead of the
scan. -/
theorem Awaited.event {evs : List (Event τ I)} {e : Event τ I} (h : Awaited s evs x)
    (hstep : Pending s x → PendingStep s s' x) (hlog : s'.log = e :: s.log) :
    Awaited s' (e :: evs) x := by
  rcases h.pending with hp | hgot
  · cases hstep hp with
    | quiet hw _ => exact absurd (hlog.symm.trans hw) (List.cons_ne_self e s.log)
    | event e' hw he hp' =>
        obtain rfl : e' = e := (List.cons.inj (hw.symm.trans hlog)).1
        refine ⟨⟨fun hnull => ?_, h.nullAfter⟩, .inl hp'⟩
        rw [he] at hnull
        cases hnull
    | returned u more hw =>
        obtain rfl : Event.got u (some x) more = e := (List.cons.inj (hw.symm.trans hlog)).1
        refine ⟨⟨fun hnull => ?_, h.nullAfter⟩, .inr ⟨u, more, List.mem_cons_self⟩⟩
        cases hnull
  · obtain ⟨u, more, hmem⟩ := hgot
    exact ⟨⟨fun _ => ⟨u, more, hmem⟩, h.nullAfter⟩, .inr ⟨u, more, List.mem_cons_of_mem e hmem⟩⟩

omit [DecidableEq τ] in
/-- No scan is in progress: every stored item is ahead of it. -/
theorem awaited_of_rest (hrest : ∀ u pc, s.thread u = some pc → isPut pc = true)
    (hqueued : holder s.log x = .queued)
    (hstored : ∀ u pc, s.thread u = some pc → putting pc ≠ some x) : Awaited s [] x := by
  refine ⟨trivial, .inl ⟨hqueued, hstored, ?_, ?_⟩⟩
  · intro u v pc pc' hu _ hget
    rw [hrest u pc hu] at hget
    cases hget
  · exact fun u pc _ hu hc => absurd hc (not_scanned_of_isPut (hrest u pc hu))

/-- **Null means empty.**  Let no `get_item` be in progress.  As long as calls of
`get_item` then do not overlap, each of them that returns null does so after
every item that was stored at the beginning has been returned, whatever
`put_item` is called meanwhile. -/
theorem null_after_stored (h : (Conservation.machine τ I).Reachable s)
    (hrest : ∀ u pc, s.thread u = some pc → isPut pc = true)
    (hrun : (Conservation.machine τ I).Run GetsApart s s') :
    ∃ evs, s'.log = evs ++ s.log ∧ ∀ x, holder s.log x = .queued →
      (∀ u pc, s.thread u = some pc → putting pc ≠ some x) → NullAfter x evs := by
  obtain ⟨-, evs, hlog, hall⟩ : (Conservation.machine τ I).Reachable s' ∧
      ∃ evs, s'.log = evs ++ s.log ∧ ∀ x, holder s.log x = .queued →
        (∀ u pc, s.thread u = some pc → putting pc ≠ some x) → Awaited s' evs x := by
    refine hrun.preserves (I := fun v => (Conservation.machine τ I).Reachable v ∧
      ∃ evs, v.log = evs ++ s.log ∧ ∀ x, holder s.log x = .queued →
        (∀ u pc, s.thread u = some pc → putting pc ≠ some x) → Awaited v evs x) ?_
      ⟨h, [], rfl, fun x => awaited_of_rest hrest⟩
    intro v l w ⟨hv, evs, hlog, hall⟩ hok hstep
    refine ⟨.step hv trivial hstep, ?_⟩
    rcases Conservation.step_log hstep with hw | ⟨e, hw⟩
    · exact ⟨evs, hw.trans hlog, fun x hx hstored =>
        (hall x hx hstored).quiet (fun hp => pending_step hv hp hok hstep) hw⟩
    · refine ⟨e :: evs, by rw [hw, hlog, List.cons_append], fun x hx hstored => ?_⟩
      exact (hall x hx hstored).event (fun hp => pending_step hv hp hok hstep) hw
  exact ⟨evs, hlog, fun x hx hstored => (hall x hx hstored).nullAfter⟩

/-- An item is stored while another is being pushed. -/
def storedAndPushing : List (Label Bool Bool) :=
  [.putItem false false 0, .run false false, .run false false, .run false false,
   .putItem true true 1, .run true false]

/-- Then `get_item` is called three times, and the push ends after the first. -/
def threeGets : List (Label Bool Bool) :=
  .getItem false :: List.replicate 3 (.run false false) ++
    .run true false :: .getItem false :: List.replicate 10 (.run false false) ++
      .getItem false :: List.replicate 12 (.run false false)

theorem null_after_stored_threeGets : ∃ (s s' : State Bool Bool) (evs : List (Event Bool Bool)),
    s'.log = evs ++ s.log ∧ evs.any isNull = true ∧ NullAfter false evs := by
  obtain ⟨s, hs, hp⟩ := Machine.exists_reach_of_replay (Conservation.machine Bool Bool)
    storedAndPushing
    (fun s => (∃ s' ∈ (Conservation.machine Bool Bool).replayOk GetsApart s threeGets,
        s'.log.any isNull = true) ∧
      (∀ u, ∀ pc ∈ s.thread u, isPut pc = true ∧ putting pc ≠ some false) ∧
      holder s.log false = .queued ∧ s.log.any isNull = false)
    rfl (by decide)
  obtain ⟨⟨s', hrun, hnull⟩, hrest, hqueued, hnone⟩ := of_decide_eq_true hp
  obtain ⟨evs, hlog, hall⟩ := null_after_stored hs (fun u pc hu => (hrest u pc hu).1)
    (Machine.run_of_replayOk threeGets hrun)
  refine ⟨s, s', evs, hlog, ?_, hall false hqueued fun u pc hu => (hrest u pc hu).2⟩
  rwa [hlog, List.any_append, hnone, Bool.or_false] at hnull

/-- Two threads call `get_item` at once: the first has both items in hand. -/
def twoGets : List (Label Bool Bool) :=
  [.putItem false false 0, .run false false, .run false false, .run false false,
   .putItem true true 0, .run true false, .run true false, .run true false,
   .getItem false, .run false false, .run false false, .getItem true] ++
    List.replicate 12 (.run true false)

/-- **Calls that overlap.**  A `get_item` returns null although two items are
stored and none has been returned. -/
theorem null_overlapping : ∃ s : State Bool Bool, (Conservation.machine Bool Bool).Reachable s ∧
    s.log.any isNull = true ∧ ∀ x, holder s.log x = .queued := by
  obtain ⟨s, hs, hp⟩ := Machine.exists_reach_of_replay (Conservation.machine Bool Bool) twoGets
    (fun s => s.log.any isNull = true ∧ ∀ x, holder s.log x = .queued) rfl (by decide)
  exact ⟨s, hs, of_decide_eq_true hp⟩

end Emptiness

end Alterstack
