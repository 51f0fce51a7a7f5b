/-
  Alterstack.Scheduler.WaitLists — the lists of waiting tasks.

  A task in a wait list is reached from the head of one Awaitable, or from the
  rest of the list that one stack in `add_waiting_list_to_running` has taken;
  it stays Waiting there until that stack unlinks it.  (A native task outside
  `W` may be listed after the end of its thread; it no longer has a state then.)

  Main results:
    * `WaitLists.move`, `WaitLists.quiet` — steps outside the lists;
    * `WaitLists.insert`, `WaitLists.take`, `WaitLists.unlink` — the
      compare-exchanges of `insert_current_task_in_waitlist` and `release`, and
      the removal of the first task of a taken list.
-/
import Alterstack.Lib.Segment
import Alterstack.Scheduler.Threads

namespace Alterstack

namespace Scheduler

open Lib (Seg Layout)

variable {Θ T A : Type*}

/-! ## §1. What a control point says about lists. -/

namespace Pc

/-- The list that is still to be processed. -/
def list : Pc Θ T A → Option (TaskId Θ T)
  | .addState _ _ task _ => some task
  | .addNotify _ _ taskList _ _ | .addContext _ _ taskList _ _
  | .addEnqueue _ _ taskList _ _ => taskList
  | _ => none

/-- The Awaitable whose list is processed. -/
def releasing : Pc Θ T A → Option (AwId Θ T A)
  | .addState _ a _ _ | .addNotify _ a _ _ _ | .addContext _ a _ _ _ | .addEnqueue _ a _ _ _
  | .delayedContext _ a _ _ | .delayedEnqueue _ a _ _ => some a
  | _ => none

/-- The Awaitable that the stack has seen or made finished. -/
def sawFinished : Pc Θ T A → Option (AwId Θ T A)
  | .insert a _ .undoState | .insert a _ .undoContext | .waitRet a false => some a
  | p => p.releasing

end Pc

/-- Where a listed task is: in the list of an Awaitable, or taken by a stack. -/
inductive Place (Θ T A : Type*) where
  | aw (a : AwId Θ T A)
  | taken (y : TaskId Θ T)
  deriving DecidableEq

/-- `x` is in no list. -/
abbrev Unlisted (L : Layout (Place Θ T A) (TaskId Θ T)) (x : TaskId Θ T) : Prop :=
  ∀ q, x ∉ L.at_ q

/-- A task inside `insert_current_task_in_waitlist`, with the fields `f`. -/
def Pc.Inserting (L : Layout (Place Θ T A) (TaskId Θ T)) (x : TaskId Θ T)
    (f : TaskBase (TaskId Θ T)) : Pc Θ T A → Prop
  | .insert _ _ (.setState aw) => aw.isFinished = false
  | .insert _ _ (.setContext aw) => f.state = .waiting ∧ Unlisted L x ∧ aw.isFinished = false
  | .insert _ _ (.cas aw) =>
      f.state = .waiting ∧ Unlisted L x ∧ f.next = aw.head ∧ aw.isFinished = false
  | .insert _ _ .undoState => Unlisted L x
  | _ => True

theorem Pc.Inserting.imp {L L' : Layout (Place Θ T A) (TaskId Θ T)} {x : TaskId Θ T}
    {f f' : TaskBase (TaskId Θ T)} {p : Pc Θ T A} (h : p.Inserting L x f)
    (hL : Unlisted L x → Unlisted L' x) (hs : f'.state = f.state) (hn : f'.next = f.next) :
    p.Inserting L' x f' := by
  cases p with
  | insert a currentTask pc =>
      cases pc with
      | load => trivial
      | setState aw => exact h
      | setContext aw => exact ⟨hs.trans h.1, hL h.2.1, h.2.2⟩
      | cas aw => exact ⟨hs.trans h.1, hL h.2.1, hn.trans h.2.2.1, h.2.2.2⟩
      | undoState => exact hL h
      | undoContext => trivial
  | _ => trivial

/-! ## §2. The invariant. -/

structure WaitLists (W : TaskId Θ T → Prop) (pc : TaskId Θ T → Pc Θ T A)
    (task : TaskId Θ T → TaskBase (TaskId Θ T)) (aw : AwId Θ T A → AwaitableData (TaskId Θ T))
    (insertedIn : TaskId Θ T → Option (AwId Θ T A))
    (L : Layout (Place Θ T A) (TaskId Θ T)) : Prop where
  waitList : ∀ a, Seg (fun x => (task x).next) (aw a).head (L.at_ (.aw a)) none
  finished : ∀ a, (aw a).isFinished = true → (aw a).head = none
  taken : ∀ y, Seg (fun x => (task x).next) (pc y).list (L.at_ (.taken y)) none
  listed : ∀ q x, x ∈ L.at_ q → (task x).state = .waiting ∨ (pc x = .exited ∧ ¬ W x)
  insertedAw : ∀ a x, x ∈ L.at_ (.aw a) → insertedIn x = some a
  insertedTaken : ∀ y x, x ∈ L.at_ (.taken y) → insertedIn x = (pc y).releasing
  inserting : ∀ x, (pc x).Inserting L x (task x)
  sawFinished : ∀ y a, (pc y).sawFinished = some a → (aw a).isFinished = true

theorem waitLists_init [DecidableEq Θ] [DecidableEq T] (W : TaskId Θ T → Prop) :
    WaitLists W (initial : State Θ T A).pc (initial : State Θ T A).task
      (initial : State Θ T A).aw (initial : State Θ T A).insertedIn .empty where
  waitList := fun _ => rfl
  finished := fun _ _ => rfl
  taken := by rintro (_ | _) <;> rfl
  listed := by simp
  insertedAw := by simp
  insertedTaken := by simp
  inserting := by rintro (_ | _) <;> trivial
  sawFinished := by rintro (_ | _) a h <;> cases h

namespace WaitLists

variable [DecidableEq Θ] [DecidableEq T] [DecidableEq A] {W : TaskId Θ T → Prop}
  {pc : TaskId Θ T → Pc Θ T A}
  {task : TaskId Θ T → TaskBase (TaskId Θ T)} {aw : AwId Θ T A → AwaitableData (TaskId Θ T)}
  {insertedIn : TaskId Θ T → Option (AwId Θ T A)} {L : Layout (Place Θ T A) (TaskId Θ T)}
  {x y z : TaskId Θ T} {a : AwId Θ T A} {p : Pc Θ T A} {f : TaskBase (TaskId Θ T)}

omit [DecidableEq Θ] [DecidableEq T] [DecidableEq A] in
/-- A Running task is in no list. -/
theorem unlisted (h : WaitLists W pc task aw insertedIn L) (hs : (task x).state ≠ .waiting)
    (hpc : pc x ≠ .exited) : Unlisted L x := by
  intro q hq
  rcases h.listed q x hq with hw | he
  · exact hs hw
  · exact hpc he.1

omit [DecidableEq Θ] [DecidableEq T] [DecidableEq A] in
/-- Only states and links matter. -/
theorem congr {task' : TaskId Θ T → TaskBase (TaskId Θ T)}
    (h : WaitLists W pc task aw insertedIn L) (hs : ∀ x, (task' x).state = (task x).state)
    (hn : ∀ x, (task' x).next = (task x).next) : WaitLists W pc task' aw insertedIn L := by
  have hlink : (fun x => (task' x).next) = fun x => (task x).next := funext hn
  refine { h with waitList := ?_, taken := ?_, listed := ?_, inserting := ?_ }
  · rw [hlink]
    exact h.waitList
  · rw [hlink]
    exact h.taken
  · intro q x hx
    rw [hs]
    exact h.listed q x hx
  · exact fun x => (h.inserting x).imp id (hs x) (hn x)

omit [DecidableEq A] in
/-- A step that writes at most the task of the stack and no list. -/
theorem move (h : WaitLists W pc task aw insertedIn L) (hlist : p.list = (pc x).list)
    (hrel : p.releasing = (pc x).releasing ∨ p.list = none)
    (hnext : f.next = (task x).next ∨ Unlisted L x)
    (hstate : ∀ q, x ∈ L.at_ q → f.state = .waiting ∨ (p = .exited ∧ ¬ W x))
    (hins : p.Inserting L x f) (hfin : ∀ a, p.sawFinished = some a → (aw a).isFinished = true) :
    WaitLists W (Function.update pc x p) (Function.update task x f) aw insertedIn L := by
  have hlink : ∀ q, ∀ y ∈ L.at_ q, (Function.update task x f y).next = (task y).next := by
    intro q y hy
    by_cases hyx : y = x
    · subst hyx
      rcases hnext with hn | hu
      · simpa using hn
      · exact absurd hy (hu q)
    · simp [hyx]
  refine { h with
    waitList := ?waitList, taken := ?taken, listed := ?listed, insertedTaken := ?insertedTaken,
    inserting := ?inserting, sawFinished := ?sawFinished }
  case waitList =>
    exact fun a => (h.waitList a).congr (hlink _)
  case taken =>
    intro y
    refine Seg.congr ?_ (hlink _)
    by_cases hyx : y = x
    · subst hyx
      rw [Function.update_self, hlist]
      exact h.taken y
    · rw [Function.update_of_ne hyx]
      exact h.taken y
  case listed =>
    intro q y hy
    by_cases hyx : y = x
    · subst hyx
      simpa using hstate q hy
    · simpa [hyx] using h.listed q y hy
  case insertedTaken =>
    intro y w hw
    by_cases hyx : y = x
    · subst hyx
      rw [Function.update_self]
      rcases hrel with hr | hn
      · rw [hr]
        exact h.insertedTaken y w hw
      · -- nothing was left of the taken list
        have := h.taken y
        rw [← hlist, hn] at this
        simp [this.eq_nil.1] at hw
    · rw [Function.update_of_ne hyx]
      exact h.insertedTaken y w hw
  case inserting =>
    intro y
    by_cases hyx : y = x
    · subst hyx
      simpa using hins
    · simpa [hyx] using h.inserting y
  case sawFinished =>
    intro y a hy
    by_cases hyx : y = x
    · subst hyx
      exact hfin a (by simpa using hy)
    · exact h.sawFinished y a (by simpa [hyx] using hy)

omit [DecidableEq A] in
/-- A step that writes nothing. -/
theorem quiet (h : WaitLists W pc task aw insertedIn L) (hlist : p.list = (pc x).list)
    (hrel : p.releasing = (pc x).releasing ∨ p.list = none) (hpc : pc x ≠ .exited)
    (hins : p.Inserting L x (task x))
    (hfin : ∀ a, p.sawFinished = some a → (aw a).isFinished = true) :
    WaitLists W (Function.update pc x p) task aw insertedIn L := by
  have := h.move (f := task x) hlist hrel (.inl rfl)
    (fun q hq => .inl ((h.listed q x hq).resolve_right (fun he => hpc he.1))) hins hfin
  rwa [Function.update_eq_self] at this

/-- The successful compare-exchange of `insert_current_task_in_waitlist`. -/
theorem insert (h : WaitLists W pc task aw insertedIn L) (hx : Unlisted L x)
    (hstate : (task x).state = .waiting) (hnext : (task x).next = (aw a).head)
    (hpc : (pc x).list = none) (hlist : p.list = none) (hsaw : p.sawFinished = none)
    (hins : p.Inserting (L.receive (.aw a) x hx) x (task x)) (hfin : (aw a).isFinished = false) :
    WaitLists W (Function.update pc x p) task
      (Function.update aw a { head := some x, isFinished := false })
      (Function.update insertedIn x (some a)) (L.receive (.aw a) x hx) := by
  have hat : ∀ q, q ≠ .aw a → (L.receive (.aw a) x hx).at_ q = L.at_ q := by
    intro q hq
    simp [hq]
  have hata : (L.receive (.aw a) x hx).at_ (.aw a) = x :: L.at_ (.aw a) := by simp
  -- exactly `x` is new
  have hmem : ∀ q w, w ≠ x → w ∈ (L.receive (.aw a) x hx).at_ q → w ∈ L.at_ q := by
    intro q w hwx hw
    by_cases hq : q = .aw a
    · subst hq
      rw [hata] at hw
      exact (List.mem_cons.mp hw).resolve_left hwx
    · rwa [hat q hq] at hw
  refine ⟨?waitList, ?finished, ?taken, ?listed, ?insertedAw, ?insertedTaken, ?inserting,
    ?sawFinished⟩
  -- `m_next` is the head the compare-exchange expected
  case waitList =>
    intro b
    by_cases hb : b = a
    · subst hb
      rw [hata, Function.update_self]
      have hhead := h.waitList b
      rw [← hnext] at hhead
      exact ⟨rfl, hhead⟩
    · rw [hat _ (by simpa using hb), Function.update_of_ne hb]
      exact h.waitList b
  case finished =>
    intro b
    by_cases hb : b = a
    · subst hb
      simp
    · simpa [hb] using h.finished b
  case taken =>
    intro y
    rw [hat _ (by simp)]
    by_cases hyx : y = x
    · subst hyx
      rw [Function.update_self, hlist]
      have := h.taken y
      rwa [hpc] at this
    · rw [Function.update_of_ne hyx]
      exact h.taken y
  case listed =>
    intro q w hw
    by_cases hwx : w = x
    · exact .inl (hwx ▸ hstate)
    · rw [Function.update_of_ne hwx]
      exact h.listed q w (hmem q w hwx hw)
  case insertedAw =>
    intro b w hw
    by_cases hwx : w = x
    · subst hwx
      by_cases hb : b = a
      · simp [hb]
      · rw [hat _ (by simpa using hb)] at hw
        exact absurd hw (hx _)
    · rw [Function.update_of_ne hwx]
      exact h.insertedAw b w (hmem _ w hwx hw)
  case insertedTaken =>
    intro y w hw
    rw [hat _ (by simp)] at hw
    have hwx : w ≠ x := fun hwx => hx _ (hwx ▸ hw)
    rw [Function.update_of_ne hwx, h.insertedTaken y w hw]
    by_cases hyx : y = x
    · subst hyx
      have := h.taken y
      rw [hpc] at this
      simp [this.eq_nil.1] at hw
    · rw [Function.update_of_ne hyx]
  case inserting =>
    intro y
    by_cases hyx : y = x
    · subst hyx
      simpa using hins
    · rw [Function.update_of_ne hyx]
      exact (h.inserting y).imp (fun hy q hq => hy q (hmem q y hyx hq)) rfl rfl
  case sawFinished =>
    intro y b hy
    by_cases hyx : y = x
    · subst hyx
      rw [Function.update_self, hsaw] at hy
      cases hy
    · rw [Function.update_of_ne hyx] at hy
      have := h.sawFinished y b hy
      by_cases hb : b = a
      · subst hb
        rw [hfin] at this
        cases this
      · rwa [Function.update_of_ne hb]

/-- The layout after `y` has taken the list of `a`. -/
def takeList (L : Layout (Place Θ T A) (TaskId Θ T)) (a : AwId Θ T A) (y : TaskId Θ T)
    (hy : L.at_ (.taken y) = []) : Layout (Place Θ T A) (TaskId Θ T) :=
  L.rearrange [.aw a, .taken y] (by simp)
    (Function.update (Function.update L.at_ (.aw a) []) (.taken y) (L.at_ (.aw a)))
    (by
      intro p hp
      simp only [List.mem_cons, List.not_mem_nil, or_false, not_or] at hp
      simp [hp.1, hp.2])
    (by simp [hy])

/-- A task is listed after the take if and only if it was before. -/
theorem takeList_unlisted (hy : L.at_ (.taken y) = []) :
    Unlisted (takeList L a y hy) x ↔ Unlisted L x := by
  have : (∃ q, x ∈ (takeList L a y hy).at_ q) ↔ ∃ q, x ∈ L.at_ q := Layout.rearrange_mem ..
  simpa only [Unlisted, ← not_exists, not_iff_not] using this

/-- The successful compare-exchange of `release`. -/
theorem take (h : WaitLists W pc task aw insertedIn L) (hexit : pc y ≠ .exited)
    (hy : L.at_ (.taken y) = []) (hlist : p.list = (aw a).head)
    (hrel : p.releasing = some a ∨ p.list = none)
    (hins : p.Inserting (takeList L a y hy) y (task y))
    (hsaw : ∀ b, p.sawFinished = some b → b = a) :
    WaitLists W (Function.update pc y p) task
      (Function.update aw a { head := none, isFinished := true }) insertedIn
      (takeList L a y hy) := by
  have hat : ∀ b, b ≠ a → (takeList L a y hy).at_ (.aw b) = L.at_ (.aw b) := by
    intro b hb
    simp [takeList, hb]
  have hata : (takeList L a y hy).at_ (.aw a) = [] := by simp [takeList]
  have haty : (takeList L a y hy).at_ (.taken y) = L.at_ (.aw a) := by simp [takeList]
  have hatz : ∀ z, z ≠ y → (takeList L a y hy).at_ (.taken z) = L.at_ (.taken z) := by
    intro z hz
    simp [takeList, hz]
  refine ⟨?waitList, ?finished, ?taken, ?listed, ?insertedAw, ?insertedTaken, ?inserting,
    ?sawFinished⟩
  case waitList =>
    intro b
    by_cases hb : b = a
    · subst hb
      rw [hata]
      simp
    · rw [hat b hb, Function.update_of_ne hb]
      exact h.waitList b
  case finished =>
    intro b
    by_cases hb : b = a
    · subst hb
      simp
    · rw [Function.update_of_ne hb]
      exact h.finished b
  case taken =>
    intro z
    by_cases hz : z = y
    · subst hz
      rw [haty, Function.update_self, hlist]
      exact h.waitList a
    · rw [hatz z hz, Function.update_of_ne hz]
      exact h.taken z
  -- whoever was listed still is: the list has only changed its owner
  case listed =>
    intro q x hx
    have : ¬ Unlisted L x := fun hu => (takeList_unlisted hy).mpr hu q hx
    obtain ⟨q', hq'⟩ := not_forall_not.mp this
    rcases h.listed q' x hq' with hs | he
    · exact .inl hs
    · by_cases hxy : x = y
      · exact absurd (hxy ▸ he.1) hexit
      · exact .inr (by simpa [hxy] using he)
  case insertedAw =>
    intro b x hx
    by_cases hb : b = a
    · subst hb
      simp [hata] at hx
    · rw [hat b hb] at hx
      exact h.insertedAw b x hx
  case insertedTaken =>
    intro z x hx
    by_cases hz : z = y
    · subst hz
      rw [haty] at hx
      rw [Function.update_self, h.insertedAw a x hx]
      rcases hrel with hr | hn
      · exact hr.symm
      · have := h.waitList a
        rw [← hlist, hn] at this
        simp [this.eq_nil.1] at hx
    · rw [hatz z hz] at hx
      rw [Function.update_of_ne hz]
      exact h.insertedTaken z x hx
  case inserting =>
    intro z
    by_cases hz : z = y
    · subst hz
      simpa using hins
    · rw [Function.update_of_ne hz]
      exact (h.inserting z).imp (takeList_unlisted hy).mpr rfl rfl
  case sawFinished =>
    intro z b hb
    by_cases hba : b = a
    · simp [hba]
    · rw [Function.update_of_ne hba]
      by_cases hz : z = y
      · subst hz
        exact absurd (hsaw b (by simpa using hb)) hba
      · exact h.sawFinished z b (by simpa [hz] using hb)

/-- The first task of a taken list is unlinked and becomes Running. -/
theorem unlink (h : WaitLists W pc task aw insertedIn L) (hexit : pc y ≠ .exited)
    (hpc : (pc y).list = some z) (hrel : (pc y).releasing = some a)
    (hlist : p.list = (task z).next) (hrel' : p.releasing = some a)
    (hins : ∀ L' g, p.Inserting L' y g) (hsaw : p.sawFinished = (pc y).sawFinished) :
    ∃ L', WaitLists W (Function.update pc y p)
      (Function.update task z { task z with state := .running, next := none }) aw insertedIn
      L' := by
  obtain ⟨rest, hrest, htail⟩ := Seg.eq_cons (hpc ▸ h.taken y)
  have hz : z ∈ L.at_ (.taken y) := by simp [hrest]
  have hzrest : z ∉ rest := by
    have := L.nodup (.taken y)
    rw [hrest] at this
    exact (List.nodup_cons.mp this).1
  have hsub : rest.Sublist (L.at_ (.taken y)) := by simp [hrest]
  refine ⟨L.release (.taken y) rest hsub, ?_⟩
  set L' := L.release (.taken y) rest hsub with hL'
  have hat : ∀ q, q ≠ .taken y → L'.at_ q = L.at_ q := by
    intro q hq
    simp [hL', hq]
  have haty : L'.at_ (.taken y) = rest := by simp [hL']
  -- exactly `z` has left
  have hmem : ∀ q x, x ∈ L'.at_ q → x ∈ L.at_ q ∧ x ≠ z := by
    intro q x hx
    by_cases hq : q = .taken y
    · subst hq
      rw [haty] at hx
      exact ⟨hsub.subset hx, fun hxz => hzrest (hxz ▸ hx)⟩
    · rw [hat q hq] at hx
      exact ⟨hx, fun hxz => hq (L.excl (hxz ▸ hx) hz)⟩
  have hlink : ∀ q, ∀ x ∈ L'.at_ q,
      (Function.update task z { task z with state := .running, next := none } x).next =
        (task x).next := by
    intro q x hx
    simp [(hmem q x hx).2]
  refine ⟨?waitList, h.finished, ?taken, ?listed, ?insertedAw, ?insertedTaken, ?inserting,
    ?sawFinished⟩
  case waitList =>
    intro b
    have := hlink (.aw b)
    rw [hat (.aw b) (by simp)] at this ⊢
    exact (h.waitList b).congr this
  case taken =>
    intro w
    by_cases hw : w = y
    · subst hw
      have := hlink (.taken w)
      rw [haty] at this ⊢
      rw [Function.update_self, hlist]
      exact Seg.congr htail this
    · have := hlink (.taken w)
      rw [hat (.taken w) (by simpa using hw)] at this ⊢
      rw [Function.update_of_ne hw]
      exact (h.taken w).congr this
  case listed =>
    intro q x hx
    obtain ⟨hx, hxz⟩ := hmem q x hx
    rw [Function.update_of_ne hxz]
    rcases h.listed q x hx with hs | he
    · exact .inl hs
    · have hxy : x ≠ y := fun hxy => hexit (hxy ▸ he.1)
      exact .inr (by simpa [hxy] using he)
  case insertedAw =>
    exact fun b x hx => h.insertedAw b x (hmem _ x hx).1
  case insertedTaken =>
    intro w x hx
    rw [h.insertedTaken w x (hmem _ x hx).1]
    by_cases hw : w = y
    · subst hw
      rw [Function.update_self, hrel, hrel']
    · rw [Function.update_of_ne hw]
  case inserting =>
    intro x
    by_cases hxy : x = y
    · subst hxy
      simpa using hins L' _
    · rw [Function.update_of_ne hxy]
      have hun : Unlisted L x → Unlisted L' x := fun hx q hq => hx q (hmem q x hq).1
      by_cases hxz : x = z
      · -- a listed task is not inside `insert_current_task_in_waitlist`
        subst hxz
        have hins := h.inserting x
        cases hp : pc x with
        | insert b currentTask pc =>
            rw [hp] at hins
            cases pc with
            | load => trivial
            | setState aw => exact hins
            | setContext aw => exact absurd hz (hins.2.1 _)
            | cas aw => exact absurd hz (hins.2.1 _)
            | undoState => exact absurd hz (hins _)
            | undoContext => trivial
        | _ => trivial
      · rw [Function.update_of_ne hxz]
        exact (h.inserting x).imp hun rfl rfl
  case sawFinished =>
    intro w b hw
    by_cases hwy : w = y
    · subst hwy
      rw [Function.update_self, hsaw] at hw
      exact h.sawFinished w b hw
    · exact h.sawFinished w b (by simpa [hwy] using hw)

omit [DecidableEq A] in
/-- The fields of a task outside all lists are written while nobody executes it. -/
theorem setFields (h : WaitLists W pc task aw insertedIn L) (hx : Unlisted L x)
    (hpc : ∀ L' g, (pc x).Inserting L' x g) :
    WaitLists W pc (Function.update task x f) aw insertedIn L := by
  have hlink : ∀ q, ∀ y ∈ L.at_ q, (Function.update task x f y).next = (task y).next := by
    intro q y hy
    have : y ≠ x := fun hyx => hx q (hyx ▸ hy)
    simp [this]
  refine { h with waitList := ?_, taken := ?_, listed := ?_, inserting := ?_ }
  · exact fun a => (h.waitList a).congr (hlink _)
  · exact fun y => (h.taken y).congr (hlink _)
  · intro q y hy
    have : y ≠ x := fun hyx => hx q (hyx ▸ hy)
    simpa [this] using h.listed q y hy
  · intro y
    by_cases hyx : y = x
    · subst hyx
      exact hpc L _
    · rw [Function.update_of_ne hyx]
      exact h.inserting y

end WaitLists

end Scheduler

end Alterstack
