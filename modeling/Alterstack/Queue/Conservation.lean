/-
  Alterstack.Queue.Conservation — no item of a `LockFreeQueue` is lost or
  duplicated.

  Any number of threads run `put_item` and `get_item` in any order.  A thread
  puts an item that was never put, or that its own `get_item` has returned and
  that was not put since, with a null link; between the calls the links of such
  items may be written in any way.  The ghost `log` records the calls, newest
  first, and says for every item whether it is in the queue.

  Main results:
    * `Conservation.inv_reachable` — a layout of all queued items over the
      seven lists and the threads that have taken some of them out;
    * `Conservation.items_conserved` — every return is matched by its own put,
      returned items are unlinked, and at rest the seven lists hold exactly the
      items put and not returned, each once.
-/
import Alterstack.Lib.Machine
import Alterstack.Queue.Ownership

namespace Alterstack

namespace Conservation

open Lib Queue LockFreeQueue

/-! ## §1. The machine. -/

/-- The calls as the ghost log records them: `put_item` begins, `put_item`
returns, `get_item` returns, a link is written outside the queue. -/
inductive Event (τ I : Type*) where
  | put (t : τ) (x : I) (prio : UInt32)
  | stored (t : τ)
  | got (t : τ) (item : Option I) (haveMore : Bool)
  | wrote (x : I) (v : Option I)

/-- Where an item is: never put, in the queue (or inside `put_item`), or back
with the thread that `get_item` has returned it to. -/
inductive Holder (τ : Type*) where
  | fresh
  | queued
  | returned (t : τ)
  deriving DecidableEq

variable {τ I : Type*} [DecidableEq τ] [DecidableEq I]

def holder : List (Event τ I) → I → Holder τ
  | [], _ => .fresh
  | .put _ x _ :: log, y => if y = x then .queued else holder log y
  | .got t item _ :: log, y => if y ∈ item then .returned t else holder log y
  | .stored _ :: log, y => holder log y
  | .wrote _ _ :: log, y => holder log y

structure State (τ I : Type*) where
  queue : LockFreeQueue I
  next : I → Option I
  thread : τ → Option (Pc I)
  log : List (Event τ I)

/-- A thread calls `put_item` or `get_item`, performs a step of its call, or
the link of an item outside the queue is written. -/
inductive Label (τ I : Type*) where
  | putItem (t : τ) (x : I) (prio : UInt32)
  | getItem (t : τ)
  | run (t : τ) (spurious : Bool)
  | setNext (x : I) (v : Option I)

/-- The control points of `put_item`. -/
def isPut : Pc I → Bool
  | .putPrio _ | .push _ _ _ => true
  | _ => false

/-- What the log gets when a call returns. -/
def returnEvent (t : τ) (pc : Pc I) (item : Option I) (haveMore : Bool) : Event τ I :=
  if isPut pc then .stored t else .got t item haveMore

def afterRun (s : State τ I) (t : τ) (pc : Pc I)
    (r : LockFreeQueue I × (I → Option I) × Next I) : State τ I where
  queue := r.1
  next := r.2.1
  thread := Function.update s.thread t
    (match r.2.2 with
      | .goto pc' => some pc'
      | .ret _ _ => none)
  log :=
    match r.2.2 with
    | .goto _ => s.log
    | .ret item haveMore => returnEvent t pc item haveMore :: s.log

def step (s : State τ I) : Label τ I → Option (State τ I)
  | .putItem t x prio =>
      if s.thread t = none ∧ (holder s.log x = .fresh ∨ holder s.log x = .returned t) ∧
          s.next x = none then
        some { s with
          thread := Function.update s.thread t (some (putItem x prio))
          log := .put t x prio :: s.log }
      else none
  | .getItem t =>
      if s.thread t = none then
        some { s with thread := Function.update s.thread t (some getItem) }
      else none
  | .run t spurious =>
      match s.thread t with
      | some pc => some (afterRun s t pc (s.queue.step spurious s.next pc))
      | none => none
  | .setNext x v =>
      if holder s.log x ≠ .queued then
        some { s with next := Function.update s.next x v, log := .wrote x v :: s.log }
      else none

/-- The queue and the items as constructed, no call in progress. -/
def initial : State τ I where
  queue := { itemBuffer := ⟨0, 0, fun _ => none⟩, prioQueue := fun _ => none }
  next := fun _ => none
  thread := fun _ => none
  log := []

def machine (τ I : Type*) [DecidableEq τ] [DecidableEq I] : Machine (State τ I) (Label τ I) where
  init := fun s => s = initial
  step := step

section Inversion

variable {s s' : State τ I} {t : τ} {x : I}

/-- What a call of `put_item` needs and does. -/
theorem step_putItem {prio : UInt32} (h : step s (.putItem t x prio) = some s') :
    s.thread t = none ∧ (holder s.log x = .fresh ∨ holder s.log x = .returned t) ∧
      s.next x = none ∧
      s' = { s with
        thread := Function.update s.thread t (some (putItem x prio))
        log := .put t x prio :: s.log } := by
  simp only [step] at h
  split at h
  next hguard =>
    injection h with h
    exact ⟨hguard.1, hguard.2.1, hguard.2.2, h.symm⟩
  next => cases h

theorem step_getItem (h : step s (.getItem t) = some s') :
    s.thread t = none ∧ s' = { s with thread := Function.update s.thread t (some getItem) } := by
  simp only [step] at h
  split at h
  next hidle =>
    injection h with h
    exact ⟨hidle, h.symm⟩
  next => cases h

theorem step_run {spurious : Bool} (h : step s (.run t spurious) = some s') :
    ∃ pc, s.thread t = some pc ∧
      s' = afterRun s t pc (s.queue.step spurious s.next pc) := by
  simp only [step] at h
  split at h
  next pc hpc =>
    injection h with h
    exact ⟨pc, hpc, h.symm⟩
  next => cases h

theorem step_setNext {v : Option I} (h : step s (.setNext x v) = some s') :
    holder s.log x ≠ .queued ∧
      s' = { s with next := Function.update s.next x v, log := .wrote x v :: s.log } := by
  simp only [step] at h
  split at h
  next hout =>
    injection h with h
    exact ⟨hout, h.symm⟩
  next => cases h

/-- What a step adds to the log. -/
theorem step_log {l : Label τ I} (h : step s l = some s') :
    s'.log = s.log ∨ ∃ e, s'.log = e :: s.log := by
  cases l with
  | putItem t x prio =>
      obtain ⟨-, -, -, rfl⟩ := step_putItem h
      exact .inr ⟨_, rfl⟩
  | getItem t =>
      obtain ⟨-, rfl⟩ := step_getItem h
      exact .inl rfl
  | run t spurious =>
      obtain ⟨pc, -, rfl⟩ := step_run h
      cases hr : (s.queue.step spurious s.next pc).2.2 with
      | goto pc' => exact .inl (by simp only [afterRun, hr])
      | ret item more => exact .inr ⟨_, by simp only [afterRun, hr]; rfl⟩
  | setNext x v =>
      obtain ⟨-, rfl⟩ := step_setNext h
      exact .inr ⟨_, rfl⟩

end Inversion

/-! ## §2. What the log must look like. -/

/-- Each `get_item` returns an item that was in the queue, each put is of an
item that was not. -/
def Legal : List (Event τ I) → Prop
  | [] => True
  | .put t x _ :: log => (holder log x = .fresh ∨ holder log x = .returned t) ∧ Legal log
  | .got _ item _ :: log => (∀ x ∈ item, holder log x = .queued) ∧ Legal log
  | .stored _ :: log => Legal log
  | .wrote _ _ :: log => Legal log

/-- How often an item was put. -/
def puts : List (Event τ I) → I → ℕ
  | [], _ => 0
  | .put _ x _ :: log, y => (if y = x then 1 else 0) + puts log y
  | .got _ _ _ :: log, y => puts log y
  | .stored _ :: log, y => puts log y
  | .wrote _ _ :: log, y => puts log y

/-- How often an item was returned. -/
def gots : List (Event τ I) → I → ℕ
  | [], _ => 0
  | .got _ item _ :: log, y => (if y ∈ item then 1 else 0) + gots log y
  | .put _ _ _ :: log, y => gots log y
  | .stored _ :: log, y => gots log y
  | .wrote _ _ :: log, y => gots log y

/-- In a legal log the puts of an item are its returns, and one more while it
is in the queue. -/
theorem Legal.matched {log : List (Event τ I)} (h : Legal log) (y : I) :
    puts log y = gots log y + if holder log y = .queued then 1 else 0 := by
  induction log with
  | nil => simp [puts, gots, holder]
  | cons e log ih =>
      cases e with
      | put t x prio =>
          have ih := ih h.2
          simp only [puts, gots, holder]
          by_cases hy : y = x
          · subst hy
            rcases h.1 with hh | hh <;> simp [hh] at ih ⊢ <;> omega
          · simpa [hy] using ih
      | stored t => exact ih h
      | wrote x v => exact ih h
      | got t item more =>
          have ih := ih h.2
          simp only [puts, gots, holder]
          by_cases hy : y ∈ item
          · simp [hy, h.1 y hy] at ih ⊢
            omega
          · simpa [hy] using ih

/-! ## §3. The invariant. -/

/-- Who holds queued nodes: one of the seven lists, or a thread. -/
inductive Place (τ : Type*) where
  | cell (c : Cell)
  | own (t : τ)
  deriving DecidableEq

/-- A thread outside the calls owns nothing. -/
def OwnsAt (next : I → Option I) (l : List I) : Option (Pc I) → Prop
  | none => l = []
  | some pc => pc.Owns next l

structure Inv (s : State τ I) (L : Layout (Place τ) I) : Prop where
  cells : ∀ c, Seg s.next (s.queue.head c) (L.at_ (.cell c)) none
  threads : ∀ t, OwnsAt s.next (L.at_ (.own t)) (s.thread t)
  queued : ∀ x, (∃ p, x ∈ L.at_ p) ↔ holder s.log x = .queued
  legal : Legal s.log
  unlinked : ∀ t x more log, s.log = .got t (some x) more :: log → s.next x = none

omit [DecidableEq τ] in
theorem inv_init : Inv (initial : State τ I) .empty where
  cells := by rintro (i | i) <;> rfl
  threads := fun _ => rfl
  queued := by simp [initial, holder]
  legal := trivial
  unlinked := by simp [initial]

omit [DecidableEq τ] [DecidableEq I] in
theorem OwnsAt.congr {next next' : I → Option I} {l : List I} {o : Option (Pc I)}
    (h : OwnsAt next l o) (hl : ∀ x ∈ l, next' x = next x) : OwnsAt next' l o := by
  cases o with
  | none => exact h
  | some pc => exact Pc.Owns.congr h hl

variable {s : State τ I} {L : Layout (Place τ) I}

omit [DecidableEq τ] in
/-- The part of the layout that a step of thread `t` works on. -/
theorem Inv.toLocal (h : Inv s L) (t : τ) :
    Local s.queue.head s.next (fun c => L.at_ (.cell c)) (L.at_ (.own t)) :=
  ⟨h.cells, fun c => List.nodup_append.mpr
    ⟨L.nodup _, L.nodup _, fun x hx y hy hxy => by
      have := L.excl hx (hxy ▸ hy)
      cases this⟩⟩

/-- The layout after a trade of thread `t` with the list `j`. -/
def trade (L : Layout (Place τ) I) (t : τ) (j : Cell) (s' l' : List I)
    (hp : (s' ++ l').Perm (L.at_ (.cell j) ++ L.at_ (.own t))) : Layout (Place τ) I :=
  L.rearrange [.cell j, .own t] (by simp)
    (Function.update (Function.update L.at_ (.cell j) s') (.own t) l')
    (by
      intro p hp
      simp only [List.mem_cons, List.not_mem_nil, or_false, not_or] at hp
      simp [hp.1, hp.2])
    (by simpa using hp)

section Trade

variable {t : τ} {j : Cell} {s' l' : List I}
  {hp : (s' ++ l').Perm (L.at_ (.cell j) ++ L.at_ (.own t))}

omit [DecidableEq I] in
@[simp] theorem trade_own : (trade L t j s' l' hp).at_ (.own t) = l' := by simp [trade]

omit [DecidableEq I] in
@[simp] theorem trade_cell : (trade L t j s' l' hp).at_ (.cell j) = s' := by simp [trade]

omit [DecidableEq I] in
theorem trade_cell_of_ne {c : Cell} (hc : c ≠ j) :
    (trade L t j s' l' hp).at_ (.cell c) = L.at_ (.cell c) := by simp [trade, hc]

omit [DecidableEq I] in
theorem trade_own_of_ne {u : τ} (hu : u ≠ t) :
    (trade L t j s' l' hp).at_ (.own u) = L.at_ (.own u) := by simp [trade, hu]

omit [DecidableEq I] in
theorem trade_mem (x : I) : (∃ p, x ∈ (trade L t j s' l' hp).at_ p) ↔ ∃ p, x ∈ L.at_ p :=
  Layout.rearrange_mem ..

end Trade

omit [DecidableEq I] in
/-- What thread `t` takes home leaves the layout. -/
theorem release_mem (L : Layout (Place τ) I) (t : τ) (x : I) :
    (∃ p, x ∈ (L.release (.own t) [] (List.nil_sublist _)).at_ p) ↔
      (∃ p, x ∈ L.at_ p) ∧ x ∉ L.at_ (.own t) := by
  rw [Layout.release_at]
  constructor
  · rintro ⟨p, hp⟩
    by_cases hpt : p = .own t
    · simp [hpt] at hp
    · rw [Function.update_of_ne hpt] at hp
      exact ⟨⟨p, hp⟩, L.not_mem_of_ne hp (Ne.symm hpt)⟩
  · rintro ⟨⟨p, hp⟩, hx⟩
    have hpt : p ≠ .own t := fun h => hx (h ▸ hp)
    exact ⟨p, by rwa [Function.update_of_ne hpt]⟩

/-- `put_item` returns no item. -/
theorem ret_of_isPut {q : LockFreeQueue I} {next : I → Option I} {spurious haveMore : Bool}
    {pc : Pc I} {item : Option I} (hput : isPut pc = true)
    (h : (q.step spurious next pc).2.2 = .ret item haveMore) : item = none := by
  cases pc with
  | getBuffer => cases hput
  | pop => cases hput
  | putRest => cases hput
  | putPrio pc =>
      simp only [LockFreeQueue.step] at h
      split at h <;> cases h
      rfl
  | push i x pc =>
      simp only [LockFreeQueue.step] at h
      split at h <;> cases h
      rfl

omit [DecidableEq τ] in
/-- After a return exactly the returned item has changed hands. -/
theorem holder_returnEvent {q : LockFreeQueue I} {next : I → Option I} {spurious haveMore : Bool}
    {pc : Pc I} {item : Option I} (h : (q.step spurious next pc).2.2 = .ret item haveMore)
    (t : τ) (log : List (Event τ I)) (x : I) :
    holder (returnEvent t pc item haveMore :: log) x =
      if x ∈ item then .returned t else holder log x := by
  unfold returnEvent
  split
  next hput =>
    obtain rfl := ret_of_isPut hput h
    simp [holder]
  next => simp only [holder]

omit [DecidableEq τ] in
theorem legal_returnEvent {t : τ} {pc : Pc I} {item : Option I} {haveMore : Bool}
    {log : List (Event τ I)} (h : Legal log) (hitem : ∀ x ∈ item, holder log x = .queued) :
    Legal (returnEvent t pc item haveMore :: log) := by
  unfold returnEvent
  split
  · exact h
  · exact ⟨hitem, h⟩

/-- One step inside a call. -/
theorem inv_run (h : Inv s L) {t : τ} {pc : Pc I} (hpc : s.thread t = some pc) (spurious : Bool) :
    ∃ L', Inv (afterRun s t pc (s.queue.step spurious s.next pc)) L' := by
  have howns : pc.Owns s.next (L.at_ (.own t)) := by
    have := h.threads t
    rwa [hpc] at this
  obtain ⟨j, s', l', hk, hs, hp, hw, ho⟩ := step_trade spurious (h.toLocal t) howns
  generalize hr : s.queue.step spurious s.next pc = r at hk hs hw ho
  obtain ⟨q', next', nx⟩ := r
  dsimp only at hk hs hw ho
  -- the layout after the exchange, and the lists and threads it leaves alone
  set L₁ := trade L t j s' l' hp with hL₁
  have hframe : ∀ p, p ≠ .own t → ∀ x ∈ L₁.at_ p, next' x = s.next x := by
    intro p hpt x hx
    refine hw x (fun hl => ?_)
    have := L₁.excl hx (show x ∈ L₁.at_ (.own t) by rwa [hL₁, trade_own])
    exact hpt this
  have hcells : ∀ c, Seg next' (q'.head c) (L₁.at_ (.cell c)) none := by
    intro c
    by_cases hc : c = j
    · subst hc
      rwa [hL₁, trade_cell]
    · have hx := hframe (.cell c) (by simp)
      rw [hL₁, trade_cell_of_ne hc] at hx ⊢
      rw [hk c hc]
      exact (h.cells c).congr hx
  have hothers : ∀ u, u ≠ t → OwnsAt next' (L₁.at_ (.own u)) (s.thread u) := by
    intro u hu
    have hx := hframe (.own u) (by simp [hu])
    rw [hL₁, trade_own_of_ne hu] at hx ⊢
    exact (h.threads u).congr hx
  have hmem : ∀ x, (∃ p, x ∈ L₁.at_ p) ↔ ∃ p, x ∈ L.at_ p := by
    intro x
    rw [hL₁]
    exact trade_mem x
  -- links of items outside the queue are not written
  have houtside : ∀ x, holder s.log x ≠ .queued → next' x = s.next x := by
    intro x hx
    refine hw x (fun hl => hx ((h.queued x).mp ?_))
    exact (hmem x).mp ⟨.own t, by rwa [hL₁, trade_own]⟩
  cases nx with
  | goto pc' =>
      refine ⟨L₁, hcells, ?_, fun x => (hmem x).trans (h.queued x), h.legal, ?_⟩
      · intro u
        by_cases hu : u = t
        · subst hu
          have : pc'.Owns next' l' := ho
          simpa [afterRun, hL₁, OwnsAt] using this
        · simpa [afterRun, hu] using hothers u hu
      · intro u x more log hlog
        have hx : holder s.log x = .returned u := by
          rw [show s.log = _ from hlog]
          simp [holder]
        exact (houtside x (by simp [hx])).trans (h.unlinked u x more log hlog)
  | ret item haveMore =>
      obtain ⟨hl', hitem⟩ := ho
      have hret : (s.queue.step spurious s.next pc).2.2 = .ret item haveMore := by rw [hr]
      -- the returned item was the thread's, so it was queued until now
      have hqueued : ∀ x ∈ item, holder s.log x = .queued := by
        intro x hx
        refine (h.queued x).mp ((hmem x).mp ⟨.own t, ?_⟩)
        rw [hL₁, trade_own, hl']
        simpa using hx
      refine ⟨L₁.release (.own t) [] (List.nil_sublist _), ?_, ?_, ?_,
        legal_returnEvent h.legal hqueued, ?_⟩
      · intro c
        rw [Layout.release_at, Function.update_of_ne (by simp)]
        exact hcells c
      · intro u
        by_cases hu : u = t
        · subst hu
          simp [afterRun, OwnsAt]
        · have := hothers u hu
          rw [Layout.release_at, Function.update_of_ne (by simp [hu])]
          simpa [afterRun, hu] using this
      · intro x
        rw [release_mem, hL₁, trade_mem, trade_own, hl', h.queued x, Option.mem_toList]
        simp only [afterRun, holder_returnEvent hret]
        by_cases hx : x ∈ item
        · rw [if_pos hx]
          exact ⟨fun hq => absurd hx hq.2, fun hq => by cases hq⟩
        · rw [if_neg hx]
          exact ⟨fun hq => hq.1, fun hq => ⟨hq, hx⟩⟩
      · intro u x more log hlog
        have hx : x ∈ item := by
          have : returnEvent t pc item haveMore = .got u (some x) more :=
            (List.cons.inj hlog).1
          unfold returnEvent at this
          split at this
          · cases this
          · cases this
            rfl
        exact hitem x hx

/-- The invariant survives every step. -/
theorem inv_step (h : ∃ L, Inv s L) {l : Label τ I} {s' : State τ I} (hstep : step s l = some s') :
    ∃ L, Inv s' L := by
  obtain ⟨L, h⟩ := h
  cases l with
  | putItem t x prio =>
      obtain ⟨hidle, hout, hnext, rfl⟩ := step_putItem hstep
      have hx : ∀ p, x ∉ L.at_ p := by
        intro p hp
        have := (h.queued x).mp ⟨p, hp⟩
        rcases hout with ho | ho <;> simp [ho] at this
      have hown : L.at_ (.own t) = [] := by
        have := h.threads t
        rwa [hidle] at this
      -- the node is its putter's until the buffer or a stack takes it
      refine ⟨L.receive (.own t) x hx, ?_, ?_, ?_, ⟨hout, h.legal⟩, by simp⟩
      · intro c
        rw [Layout.receive_at, Function.update_of_ne (by simp)]
        exact h.cells c
      · intro u
        by_cases hu : u = t
        · subst hu
          simpa [hown, OwnsAt] using putItem_owns x prio
        · simpa [hu] using h.threads u
      · intro y
        simp only [Layout.receive_at, holder]
        by_cases hy : y = x
        · subst hy
          simp only [if_true, iff_true]
          exact ⟨.own t, by simp⟩
        · rw [if_neg hy, ← h.queued y]
          refine exists_congr (fun p => ?_)
          by_cases hp : p = .own t
          · subst hp
            simp [hy]
          · rw [Function.update_of_ne hp]
  | getItem t =>
      obtain ⟨hidle, rfl⟩ := step_getItem hstep
      refine ⟨L, h.cells, fun u => ?_, h.queued, h.legal, h.unlinked⟩
      have := h.threads u
      by_cases hu : u = t
      · subst hu
        rw [hidle] at this
        simpa [OwnsAt, getItem, Pc.Owns, BoundBuffer.Pc.Owns] using this
      · simpa [hu] using this
  | run t spurious =>
      obtain ⟨pc, hpc, rfl⟩ := step_run hstep
      exact inv_run h hpc spurious
  | setNext x v =>
      obtain ⟨hout, rfl⟩ := step_setNext hstep
      -- no place holds a node that is not queued
      have hw : ∀ p, ∀ y ∈ L.at_ p, Function.update s.next x v y = s.next y := by
        intro p y hy
        have : y ≠ x := fun hyx => hout ((h.queued x).mp ⟨p, hyx ▸ hy⟩)
        simp [this]
      exact ⟨L, fun c => (h.cells c).congr (hw _), fun u => (h.threads u).congr (hw _),
        h.queued, h.legal, by simp⟩

theorem inv_reachable (h : (machine τ I).Reachable s) : ∃ L, Inv s L := by
  refine Machine.Reach.invariant (M := machine τ I) (I := fun s => ∃ L, Inv s L) ?_ ?_ h
  · rintro s rfl
    exact ⟨_, inv_init⟩
  · intro s l t hs _ hstep
    exact inv_step hs hstep

/-! ## §4. Conservation. -/

/-- No item is lost or duplicated. -/
structure Conserved (s : State τ I) : Prop where
  legal : Legal s.log
  matched : ∀ x, puts s.log x = gots s.log x + if holder s.log x = .queued then 1 else 0
  unlinked : ∀ t x more log, s.log = .got t (some x) more :: log → s.next x = none
  atRest : (∀ t, s.thread t = none) → ∃ S : Cell → List I,
    (∀ c, Seg s.next (s.queue.head c) (S c) none) ∧ (Cell.all.flatMap S).Nodup ∧
    ∀ x, x ∈ Cell.all.flatMap S ↔ holder s.log x = .queued

/-- **Conservation.**  Each put is matched by at most one return, only queued
items are returned, unlinked, and while no call is in progress the items
reachable from the four slots and the three heads are the queued ones. -/
theorem items_conserved (s : State τ I) (h : (machine τ I).Reachable s) : Conserved s := by
  obtain ⟨L, hinv⟩ := inv_reachable h
  refine ⟨hinv.legal, hinv.legal.matched, hinv.unlinked, fun hrest => ?_⟩
  refine ⟨fun c => L.at_ (.cell c), hinv.cells, ?_, fun x => ?_⟩
  · have hplaces : (Cell.all.map (Place.cell (τ := τ))).Nodup :=
      Cell.nodup_all.map (fun _ _ h => by injection h)
    have := L.flatMap_nodup hplaces
    rwa [List.flatMap_map] at this
  · rw [← hinv.queued x, List.mem_flatMap]
    constructor
    · rintro ⟨c, -, hc⟩
      exact ⟨.cell c, hc⟩
    · rintro ⟨c | t, hp⟩
      · exact ⟨c, c.mem_all, hp⟩
      · -- a thread at rest owns nothing
        have hown := hinv.threads t
        rw [hrest t, OwnsAt] at hown
        simp [hown] at hp

/-- Thread `false` puts items `false` and `true` with priority 0, which links
them in one slot (the second compare-exchange fails spuriously once);
thread `true` gets item `true` and stores the rest back. -/
def putPutGet : List (Label Bool Bool) :=
  [.putItem false false 0, .run false false, .run false false, .run false false,
   .putItem false true 0, .run false false, .run false false, .run false true, .run false false,
   .getItem true] ++
  List.replicate 6 (.run true false)

theorem items_conserved_putPutGet :
    ∃ s : State Bool Bool, holder s.log false = .queued ∧ holder s.log true = .returned true ∧
      (∀ t, s.thread t = none) ∧ Conserved s := by
  obtain ⟨s, hs, hp⟩ := Machine.exists_reach_of_replay (machine Bool Bool) putPutGet
    (fun s => holder s.log false = .queued ∧ holder s.log true = .returned true ∧
      ∀ t, s.thread t = none)
    rfl (by decide)
  obtain ⟨h0, h1, hrest⟩ := of_decide_eq_true hp
  exact ⟨s, h0, h1, hrest, items_conserved s hs⟩

end Conservation

end Alterstack
