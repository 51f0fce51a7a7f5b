/-
  Alterstack.Scheduler.Tokens — who may run or store an unbound task.

  Every `Task` has one token: it is executed by a thread, stored in the running
  queue, taken by a stack that is about to switch to it or to enqueue it
  (`ready`), still being switched out by `post_jump_fcontext` (`leaving`), or
  idle.  Each of these implies the token, so no two of them hold at once.
  Whatever is queued or about to be is Running, and the continuation of a stack
  that nobody executes is saved or about to be saved.

  Main results:
    * `Tokens.move`, `Tokens.quiet` — steps of a stack that keep every claim;
    * `Tokens.give` — a token that only the stack itself can hold moves;
    * `Tokens.setRunning`, `Tokens.save`, `Tokens.create`, `Tokens.jump` — the
      other steps.
-/
import Alterstack.Scheduler.Threads

namespace Alterstack

namespace Scheduler

variable {Θ T A : Type*}

/-! ## §1. Claims of a control point. -/

namespace Pc

/-- The task the stack is about to switch to or to enqueue. -/
def ready : Pc Θ T A → Option (TaskId Θ T)
  | .schedule _ _ (.currentState nextTask) => nextTask
  | .switchTo _ newTask => some newTask
  | .postJump _ _ prevTask _ .enqueue => some prevTask
  | .addContext _ _ _ _ task | .addEnqueue _ _ _ _ task => some task
  | _ => none

/-- The task the stack is switching out. -/
def leaving : Pc Θ T A → Option (TaskId Θ T)
  | .postJump _ _ prevTask _ .clearCurrent | .postJump _ _ prevTask _ .savePrev
  | .postJump _ _ prevTask _ .prevState => some prevTask
  | _ => none

/-- The task whose continuation the stack has yet to store. -/
def unsaved : Pc Θ T A → Option (TaskId Θ T)
  | .postJump _ _ prevTask _ .clearCurrent | .postJump _ _ prevTask _ .savePrev => some prevTask
  | _ => none

/-- A stack that nobody executes has no claims. -/
theorem claims_of_off {p : Pc Θ T A} (h : p.off = true) :
    p.ready = none ∧ p.leaving = none ∧ p.unsaved = none := by
  cases p
  case unborn => exact ⟨rfl, rfl, rfl⟩
  case start => exact ⟨rfl, rfl, rfl⟩
  case suspended => exact ⟨rfl, rfl, rfl⟩
  all_goals cases h

end Pc

inductive Tok (Θ T : Type*) where
  | idle
  | run (θ : Θ)
  | queue
  | ready (y : TaskId Θ T)
  | leaving (y : TaskId Θ T)

/-- The token of `x` changes, if `x` has one. -/
def setTok [DecidableEq T] (tok : T → Tok Θ T) (x : TaskId Θ T) (k : Tok Θ T) : T → Tok Θ T :=
  match x with
  | .native _ => tok
  | .unbound t => Function.update tok t k

@[simp] theorem setTok_self [DecidableEq T] (tok : T → Tok Θ T) (t : T) (k : Tok Θ T) :
    setTok tok (.unbound t) k t = k := by simp [setTok]

theorem setTok_of_ne [DecidableEq T] {tok : T → Tok Θ T} {x : TaskId Θ T} {k : Tok Θ T} {t : T}
    (h : x ≠ .unbound t) : setTok tok x k t = tok t := by
  cases x with
  | native θ => rfl
  | unbound u =>
      have : t ≠ u := fun htu => h (htu ▸ rfl)
      simp [setTok, this]

/-! ## §2. The invariant. -/

structure Tokens (pc : TaskId Θ T → Pc Θ T A) (exec : Θ → TaskId Θ T) (queued : T → ℕ)
    (task : TaskId Θ T → TaskBase (TaskId Θ T)) (tok : T → Tok Θ T) : Prop where
  run : ∀ θ t, exec θ = .unbound t → tok t = .run θ
  queued_le : ∀ t, queued t ≤ 1
  queue : ∀ t, 0 < queued t → tok t = .queue
  ready : ∀ y t, (pc y).ready = some (.unbound t) → tok t = .ready y
  leaving : ∀ y t, (pc y).leaving = some (.unbound t) → tok t = .leaving y
  readyNative : ∀ y θ, (pc y).ready = some (.native θ) → exec θ = y
  leavingNative : ∀ y θ, (pc y).leaving = some (.native θ) → exec θ = y
  runnable : ∀ t, tok t = .queue ∨ (∃ y, tok t = .ready y) → (task (.unbound t)).state = .running
  fcontext : ∀ x y, (task x).context = .fcontext y → y = x
  saved : ∀ x, (pc x).off = true → pc x ≠ .unborn →
    (task x).context = .fcontext x ∨ ∃ y, (pc y).unsaved = some x
  unborn : ∀ t, pc (.unbound t) = .unborn → (task (.unbound t)).state = .running ∧ tok t = .idle
  ended : ∀ t, (pc (.unbound t)).ended = true → (task (.unbound t)).state = .finished
  finished : ∀ x, (task x).state = .finished → (pc x).ended = true

theorem tokens_init [DecidableEq Θ] [DecidableEq T] :
    Tokens (initial : State Θ T A).pc (initial : State Θ T A).exec
      (initial : State Θ T A).queued (initial : State Θ T A).task (fun _ => .idle) where
  run := nofun
  queued_le := fun _ => by simp [initial]
  queue := by simp [initial]
  ready := by rintro (_ | _) t h <;> cases h
  leaving := by rintro (_ | _) t h <;> cases h
  readyNative := by rintro (_ | _) t h <;> cases h
  leavingNative := by rintro (_ | _) t h <;> cases h
  runnable := fun _ _ => rfl
  fcontext := nofun
  saved := by
    rintro (_ | _) hoff hne
    · cases hoff
    · exact absurd rfl hne
  unborn := fun _ _ => ⟨rfl, rfl⟩
  ended := nofun
  finished := nofun

namespace Tokens

variable [DecidableEq Θ] [DecidableEq T] {pc : TaskId Θ T → Pc Θ T A} {exec : Θ → TaskId Θ T}
  {queued : T → ℕ} {task : TaskId Θ T → TaskBase (TaskId Θ T)} {tok : T → Tok Θ T} {θ : Θ}
  {x y z : TaskId Θ T} {t : T} {p : Pc Θ T A} {f : TaskBase (TaskId Θ T)}

omit [DecidableEq Θ] [DecidableEq T] in
/-- Only states and contexts matter. -/
theorem congr {task' : TaskId Θ T → TaskBase (TaskId Θ T)} (h : Tokens pc exec queued task tok)
    (hs : ∀ x, (task' x).state = (task x).state) (hc : ∀ x, (task' x).context = (task x).context) :
    Tokens pc exec queued task' tok :=
  { h with
    runnable := fun t ht => (hs _).trans (h.runnable t ht)
    fcontext := fun x y hx => h.fcontext x y ((hc x).symm.trans hx)
    saved := fun x hoff hne => by
      rw [hc x]
      exact h.saved x hoff hne
    unborn := fun t ht => by
      rw [hs]
      exact h.unborn t ht
    ended := fun t ht => (hs _).trans (h.ended t ht)
    finished := fun x hx => h.finished x ((hs x).symm.trans hx) }

/-- A step of an executed stack that writes at most its own task. -/
theorem move (h : Tokens pc exec queued task tok) (hx : exec θ = x)
    (hon : (pc x).off = false) (hoff : p.off = false)
    (hr : ∀ z, p.ready = some z → (pc x).ready = some z ∨ ∃ θ', z = .native θ' ∧ exec θ' = x)
    (hl : ∀ z, p.leaving = some z → (pc x).leaving = some z)
    (hu : p.unsaved = (pc x).unsaved)
    (hf : ∀ y, f.context = .fcontext y → y = x)
    (hend : ∀ t, x = .unbound t → p.ended = true → f.state = .finished)
    (hfin : f.state = .finished → p.ended = true) :
    Tokens (Function.update pc x p) exec queued (Function.update task x f) tok where
  run := h.run
  queued_le := h.queued_le
  queue := h.queue
  ready := by
    intro y t hy
    by_cases hyx : y = x
    · subst hyx
      rw [Function.update_self] at hy
      rcases hr _ hy with hy | ⟨θ', hθ', -⟩
      · exact h.ready y t hy
      · cases hθ'
    · rw [Function.update_of_ne hyx] at hy
      exact h.ready y t hy
  leaving := by
    intro y t hy
    by_cases hyx : y = x
    · subst hyx
      rw [Function.update_self] at hy
      exact h.leaving y t (hl _ hy)
    · rw [Function.update_of_ne hyx] at hy
      exact h.leaving y t hy
  readyNative := by
    intro y θ' hy
    by_cases hyx : y = x
    · subst hyx
      rw [Function.update_self] at hy
      rcases hr _ hy with hy | ⟨θ'', hθ, hex⟩
      · exact h.readyNative y θ' hy
      · cases hθ
        exact hex
    · rw [Function.update_of_ne hyx] at hy
      exact h.readyNative y θ' hy
  leavingNative := by
    intro y θ' hy
    by_cases hyx : y = x
    · subst hyx
      rw [Function.update_self] at hy
      exact h.leavingNative y θ' (hl _ hy)
    · rw [Function.update_of_ne hyx] at hy
      exact h.leavingNative y θ' hy
  runnable := by
    intro t ht
    -- the executed task has the token of its thread
    have htx : TaskId.unbound t ≠ x := by
      intro htx
      have := h.run θ t (hx.trans htx.symm)
      rcases ht with ht | ⟨y, ht⟩ <;> rw [this] at ht <;> cases ht
    rw [Function.update_of_ne htx]
    exact h.runnable t ht
  fcontext := by
    intro z y hz
    by_cases hzx : z = x
    · subst hzx
      exact hf y (by simpa using hz)
    · rw [Function.update_of_ne hzx] at hz
      exact h.fcontext z y hz
  saved := by
    intro z hz hne
    have hzx : z ≠ x := by
      rintro rfl
      rw [Function.update_self, hoff] at hz
      cases hz
    rw [Function.update_of_ne hzx] at hz hne ⊢
    rcases h.saved z hz hne with hc | ⟨y, hy⟩
    · exact .inl hc
    · refine .inr ⟨y, ?_⟩
      by_cases hyx : y = x
      · subst hyx
        rw [Function.update_self, hu]
        exact hy
      · rwa [Function.update_of_ne hyx]
  unborn := by
    intro t ht
    have htx : TaskId.unbound t ≠ x := by
      rintro rfl
      rw [Function.update_self] at ht
      rw [ht] at hoff
      cases hoff
    rw [Function.update_of_ne htx] at ht ⊢
    exact h.unborn t ht
  ended := by
    intro t ht
    by_cases htx : TaskId.unbound t = x
    · subst htx
      rw [Function.update_self] at ht ⊢
      exact hend t rfl ht
    · rw [Function.update_of_ne htx] at ht ⊢
      exact h.ended t ht
  finished := by
    intro z hz
    by_cases hzx : z = x
    · subst hzx
      rw [Function.update_self] at hz ⊢
      exact hfin hz
    · rw [Function.update_of_ne hzx] at hz ⊢
      exact h.finished z hz

/-- A step of an executed stack that writes nothing. -/
theorem quiet (h : Tokens pc exec queued task tok) (hx : exec θ = x)
    (hon : (pc x).off = false) (hoff : p.off = false)
    (hr : ∀ z, p.ready = some z → (pc x).ready = some z ∨ ∃ θ', z = .native θ' ∧ exec θ' = x)
    (hl : ∀ z, p.leaving = some z → (pc x).leaving = some z)
    (hu : p.unsaved = (pc x).unsaved) (hend : p.ended = (pc x).ended) :
    Tokens (Function.update pc x p) exec queued task tok := by
  have := h.move (f := task x) hx hon hoff hr hl hu (h.fcontext x)
    (fun t ht he => by
      subst ht
      exact h.ended t (hend ▸ he))
    (fun hs => hend.trans (h.finished x hs))
  rwa [Function.update_eq_self] at this

/-- The token of the Running task `t`, on which no other stack has a claim,
becomes `k`. -/
theorem give (h : Tokens pc exec queued task tok) (hon : (pc x).off = false)
    (hoff : p.off = false) (hu : p.unsaved = (pc x).unsaved) (hend : p.ended = (pc x).ended)
    {q : ℕ} {k : Tok Θ T}
    (hothers : ∀ y, y ≠ x →
      (pc y).ready ≠ some (.unbound t) ∧ (pc y).leaving ≠ some (.unbound t))
    (hexec : ∀ θ, exec θ ≠ .unbound t) (hborn : pc (.unbound t) ≠ .unborn)
    (hready : ∀ z, p.ready = some z → z = .unbound t ∧ k = .ready x)
    (hleaving : p.leaving = none) (hq : q ≤ 1) (hqueue : 0 < q → k = .queue)
    (hrunning : (task (.unbound t)).state = .running) :
    Tokens (Function.update pc x p) exec (Function.update queued t q) task
      (Function.update tok t k) where
  run := by
    intro θ u hu
    have hut : u ≠ t := fun hut => hexec θ (hut ▸ hu)
    rw [Function.update_of_ne hut]
    exact h.run θ u hu
  queued_le := by
    intro u
    by_cases hut : u = t
    · subst hut
      simpa using hq
    · simpa [hut] using h.queued_le u
  queue := by
    intro u
    by_cases hut : u = t
    · subst hut
      simpa using hqueue
    · simpa [hut] using h.queue u
  ready := by
    intro y u hy
    by_cases hyx : y = x
    · subst hyx
      rw [Function.update_self] at hy
      obtain ⟨hut, hk⟩ := hready _ hy
      cases hut
      simpa using hk
    · rw [Function.update_of_ne hyx] at hy
      have hut : u ≠ t := fun hut => (hothers y hyx).1 (hut ▸ hy)
      rw [Function.update_of_ne hut]
      exact h.ready y u hy
  -- the new point claims nobody, and no other stack claimed `t`
  leaving := by
    intro y u hy
    by_cases hyx : y = x
    · subst hyx
      rw [Function.update_self, hleaving] at hy
      cases hy
    · rw [Function.update_of_ne hyx] at hy
      have hut : u ≠ t := fun hut => (hothers y hyx).2 (hut ▸ hy)
      rw [Function.update_of_ne hut]
      exact h.leaving y u hy
  readyNative := by
    intro y θ' hy
    by_cases hyx : y = x
    · subst hyx
      rw [Function.update_self] at hy
      cases (hready _ hy).1
    · rw [Function.update_of_ne hyx] at hy
      exact h.readyNative y θ' hy
  leavingNative := by
    intro y θ' hy
    by_cases hyx : y = x
    · subst hyx
      rw [Function.update_self, hleaving] at hy
      cases hy
    · rw [Function.update_of_ne hyx] at hy
      exact h.leavingNative y θ' hy
  runnable := by
    intro u hu
    by_cases hut : u = t
    · subst hut
      exact hrunning
    · rw [Function.update_of_ne hut] at hu
      exact h.runnable u hu
  fcontext := h.fcontext
  -- who is about to save a context is unchanged by the move of `x`
  saved := by
    intro z hz hne
    have hzx : z ≠ x := by
      rintro rfl
      rw [Function.update_self, hoff] at hz
      cases hz
    rw [Function.update_of_ne hzx] at hz hne
    rcases h.saved z hz hne with hc | ⟨y, hy⟩
    · exact .inl hc
    · refine .inr ⟨y, ?_⟩
      by_cases hyx : y = x
      · subst hyx
        rw [Function.update_self, hu]
        exact hy
      · rwa [Function.update_of_ne hyx]
  unborn := by
    intro u hu
    have hux : TaskId.unbound u ≠ x := by
      rintro rfl
      rw [Function.update_self] at hu
      rw [hu] at hoff
      cases hoff
    rw [Function.update_of_ne hux] at hu
    have hut : u ≠ t := fun hut => hborn (hut ▸ hu)
    rw [Function.update_of_ne hut]
    exact h.unborn u hu
  ended := by
    intro u hu
    by_cases hux : TaskId.unbound u = x
    · subst hux
      rw [Function.update_self, hend] at hu
      exact h.ended u hu
    · rw [Function.update_of_ne hux] at hu
      exact h.ended u hu
  finished := by
    intro z hz
    by_cases hzx : z = x
    · subst hzx
      rw [Function.update_self, hend]
      exact h.finished z hz
    · rw [Function.update_of_ne hzx]
      exact h.finished z hz

omit [DecidableEq Θ] [DecidableEq T] in
/-- A stack with a claim on `t` is the only one, and `t` is neither executed
nor in the queue. -/
theorem only_of_ready (h : Tokens pc exec queued task tok) (hr : (pc x).ready = some (.unbound t)) :
    (∀ y, y ≠ x → (pc y).ready ≠ some (.unbound t) ∧ (pc y).leaving ≠ some (.unbound t)) ∧
    (∀ θ, exec θ ≠ .unbound t) ∧ queued t = 0 ∧ pc (.unbound t) ≠ .unborn ∧
    (task (.unbound t)).state = .running := by
  have htok := h.ready x t hr
  refine ⟨fun y hy => ⟨fun hy' => ?_, fun hy' => ?_⟩, fun θ hθ => ?_, ?_, fun hu => ?_,
    h.runnable t (.inr ⟨x, htok⟩)⟩
  · have := h.ready y t hy'
    rw [htok] at this
    injection this with this
    exact hy this.symm
  · have := h.leaving y t hy'
    rw [htok] at this
    cases this
  · have := h.run θ t hθ
    rw [htok] at this
    cases this
  · by_contra hq
    have := h.queue t (Nat.pos_of_ne_zero hq)
    rw [htok] at this
    cases this
  · have := (h.unborn t hu).2
    rw [htok] at this
    cases this

omit [DecidableEq Θ] [DecidableEq T] in
theorem only_of_leaving (h : Tokens pc exec queued task tok)
    (hl : (pc x).leaving = some (.unbound t)) :
    (∀ y, y ≠ x → (pc y).ready ≠ some (.unbound t) ∧ (pc y).leaving ≠ some (.unbound t)) ∧
    (∀ θ, exec θ ≠ .unbound t) ∧ queued t = 0 ∧ pc (.unbound t) ≠ .unborn := by
  have htok := h.leaving x t hl
  refine ⟨fun y hy => ⟨fun hy' => ?_, fun hy' => ?_⟩, fun θ hθ => ?_, ?_, fun hu => ?_⟩
  · have := h.ready y t hy'
    rw [htok] at this
    cases this
  · have := h.leaving y t hy'
    rw [htok] at this
    injection this with this
    exact hy this.symm
  · have := h.run θ t hθ
    rw [htok] at this
    cases this
  · by_contra hq
    have := h.queue t (Nat.pos_of_ne_zero hq)
    rw [htok] at this
    cases this
  · have := (h.unborn t hu).2
    rw [htok] at this
    cases this

omit [DecidableEq Θ] [DecidableEq T] in
theorem only_of_queued (h : Tokens pc exec queued task tok) (hq : 0 < queued t) :
    (∀ y, (pc y).ready ≠ some (.unbound t) ∧ (pc y).leaving ≠ some (.unbound t)) ∧
    (∀ θ, exec θ ≠ .unbound t) ∧ pc (.unbound t) ≠ .unborn ∧
    (task (.unbound t)).state = .running := by
  have htok := h.queue t hq
  refine ⟨fun y => ⟨fun hy => ?_, fun hy => ?_⟩, fun θ hθ => ?_, fun hu => ?_,
    h.runnable t (.inl htok)⟩
  · have := h.ready y t hy
    rw [htok] at this
    cases this
  · have := h.leaving y t hy
    rw [htok] at this
    cases this
  · have := h.run θ t hθ
    rw [htok] at this
    cases this
  · have := (h.unborn t hu).2
    rw [htok] at this
    cases this

/-- A task that has not ended becomes Running. -/
theorem setRunning (h : Tokens pc exec queued task tok)
    (hend : ∀ t, z = .unbound t → (pc z).ended = false) (n : Option (TaskId Θ T)) :
    Tokens pc exec queued
      (Function.update task z { task z with state := .running, next := n }) tok := by
  refine { h with
    runnable := ?runnable, fcontext := ?fcontext, saved := ?saved, unborn := ?unborn,
    ended := ?ended, finished := ?finished }
  case runnable =>
    intro t ht
    by_cases htz : TaskId.unbound t = z
    · simp [htz]
    · simpa [htz] using h.runnable t ht
  case fcontext =>
    intro x y hx
    by_cases hxz : x = z
    · subst hxz
      exact h.fcontext x y (by simpa using hx)
    · exact h.fcontext x y (by simpa [hxz] using hx)
  case saved =>
    intro x hx hne
    by_cases hxz : x = z
    · subst hxz
      simpa using h.saved x hx hne
    · simpa [hxz] using h.saved x hx hne
  case unborn =>
    intro t ht
    by_cases htz : TaskId.unbound t = z
    · simpa [htz] using (h.unborn t ht).2
    · simpa [htz] using h.unborn t ht
  -- the task had not ended
  case ended =>
    intro t ht
    by_cases htz : TaskId.unbound t = z
    · have := hend t htz.symm
      rw [← htz, ht] at this
      cases this
    · simpa [htz] using h.ended t ht
  case finished =>
    intro x hx
    by_cases hxz : x = z
    · subst hxz
      simp at hx
    · exact h.finished x (by simpa [hxz] using hx)

/-- `post_jump_fcontext` stores the continuation of the task it switches out. -/
theorem save (h : Tokens pc exec queued task tok)
    (hz : (pc x).unsaved = some z) (hoff : p.off = false) (hr : p.ready = none)
    (hl : p.leaving = (pc x).leaving) (hend : p.ended = (pc x).ended) :
    Tokens (Function.update pc x p) exec queued
      (Function.update task z { task z with context := .fcontext z }) tok := by
  have hstate : ∀ w, (Function.update task z { task z with context := .fcontext z } w).state =
      (task w).state := by
    intro w
    by_cases hw : w = z
    · subst hw
      simp
    · simp [hw]
  refine { h with
    ready := ?ready, leaving := ?leaving, readyNative := ?readyNative,
    leavingNative := ?leavingNative, runnable := ?runnable, fcontext := ?fcontext,
    saved := ?saved, unborn := ?unborn, ended := ?ended, finished := ?finished }
  case ready =>
    intro y t hy
    by_cases hyx : y = x
    · simp [hyx, hr] at hy
    · exact h.ready y t (by simpa [hyx] using hy)
  case leaving =>
    intro y t hy
    by_cases hyx : y = x
    · subst hyx
      exact h.leaving y t (by simpa [hl] using hy)
    · exact h.leaving y t (by simpa [hyx] using hy)
  case readyNative =>
    intro y θ' hy
    by_cases hyx : y = x
    · simp [hyx, hr] at hy
    · exact h.readyNative y θ' (by simpa [hyx] using hy)
  case leavingNative =>
    intro y θ' hy
    by_cases hyx : y = x
    · subst hyx
      exact h.leavingNative y θ' (by simpa [hl] using hy)
    · exact h.leavingNative y θ' (by simpa [hyx] using hy)
  case runnable =>
    intro t ht
    rw [hstate]
    exact h.runnable t ht
  case fcontext =>
    intro w y hw
    by_cases hwz : w = z
    · subst hwz
      simpa using hw.symm
    · exact h.fcontext w y (by simpa [hwz] using hw)
  case saved =>
    intro w hw hne
    have hwx : w ≠ x := by
      rintro rfl
      rw [Function.update_self, hoff] at hw
      cases hw
    rw [Function.update_of_ne hwx] at hw hne
    by_cases hwz : w = z
    · subst hwz
      exact .inl (by simp)
    · rw [Function.update_of_ne hwz]
      rcases h.saved w hw hne with hc | ⟨y, hy⟩
      · exact .inl hc
      · -- the stack itself was about to save `z`, another one saves `w`
        have hyx : y ≠ x := by
          rintro rfl
          rw [hz] at hy
          injection hy with hy
          exact hwz hy.symm
        exact .inr ⟨y, by simpa [hyx] using hy⟩
  case unborn =>
    intro t ht
    have htx : TaskId.unbound t ≠ x := by
      rintro rfl
      rw [Function.update_self] at ht
      rw [ht] at hoff
      cases hoff
    rw [hstate]
    exact h.unborn t (by simpa [htx] using ht)
  case ended =>
    intro t ht
    rw [hstate]
    refine h.ended t ?_
    by_cases htx : TaskId.unbound t = x
    · subst htx
      rw [← hend]
      simpa using ht
    · simpa [htx] using ht
  case finished =>
    intro w hw
    rw [hstate] at hw
    have := h.finished w hw
    by_cases hwx : w = x
    · subst hwx
      simpa [hend] using this
    · simpa [hwx] using this

/-- The fields of a new task are initialised. -/
theorem construct (h : Tokens pc exec queued task tok) (hpc : pc (.unbound t) = .unborn) :
    Tokens (Function.update pc (.unbound t) .start) exec queued
      (Function.update task (.unbound t) { context := .fcontext (.unbound t) }) tok := by
  have hclaims : ∀ y, y = .unbound t → (pc y).unsaved = none := by
    rintro y rfl
    rw [hpc]
    rfl
  refine { h with
    ready := ?ready, leaving := ?leaving, readyNative := ?readyNative,
    leavingNative := ?leavingNative, runnable := ?runnable, fcontext := ?fcontext,
    saved := ?saved, unborn := ?unborn, ended := ?ended, finished := ?finished }
  case ready =>
    intro y u hy
    by_cases hyt : y = .unbound t
    · simp [hyt, Pc.ready] at hy
    · exact h.ready y u (by simpa [hyt] using hy)
  case leaving =>
    intro y u hy
    by_cases hyt : y = .unbound t
    · simp [hyt, Pc.leaving] at hy
    · exact h.leaving y u (by simpa [hyt] using hy)
  case readyNative =>
    intro y θ' hy
    by_cases hyt : y = .unbound t
    · simp [hyt, Pc.ready] at hy
    · exact h.readyNative y θ' (by simpa [hyt] using hy)
  case leavingNative =>
    intro y θ' hy
    by_cases hyt : y = .unbound t
    · simp [hyt, Pc.leaving] at hy
    · exact h.leavingNative y θ' (by simpa [hyt] using hy)
  case runnable =>
    intro u hu
    by_cases hut : u = t
    · simp [hut]
    · simpa [hut] using h.runnable u hu
  -- the first continuation of `t` is its own
  case fcontext =>
    intro w y hw
    by_cases hwt : w = .unbound t
    · subst hwt
      simpa using hw.symm
    · exact h.fcontext w y (by simpa [hwt] using hw)
  case saved =>
    intro w hw hne
    by_cases hwt : w = .unbound t
    · subst hwt
      exact .inl (by simp)
    · rw [Function.update_of_ne hwt] at hw hne ⊢
      rcases h.saved w hw hne with hc | ⟨y, hy⟩
      · exact .inl hc
      · have hyt : y ≠ .unbound t := by
          intro hyt
          rw [hclaims y hyt] at hy
          cases hy
        exact .inr ⟨y, by simpa [hyt] using hy⟩
  case unborn =>
    intro u hu
    by_cases hut : u = t
    · simp [hut] at hu
    · simpa [hut] using h.unborn u (by simpa [hut] using hu)
  case ended =>
    intro u hu
    by_cases hut : u = t
    · simp [hut, Pc.ended] at hu
    · simpa [hut] using h.ended u (by simpa [hut] using hu)
  case finished =>
    intro w hw
    by_cases hwt : w = .unbound t
    · simp [hwt] at hw
    · simpa [hwt] using h.finished w (by simpa [hwt] using hw)

omit [DecidableEq Θ] [DecidableEq T] in
/-- Two threads never execute one stack. -/
theorem exec_unique (h : Tokens pc exec queued task tok) {cur : Θ → TaskId Θ T}
    {wrapper : TaskId Θ T → TaskId Θ T} (ht : Threads pc exec cur wrapper) {θ' : Θ}
    (hx : exec θ = x) (hx' : exec θ' = x) : θ' = θ := by
  cases x with
  | native θ'' =>
      rw [← ht.native θ θ'' hx]
      exact (ht.native θ' θ'' hx').symm
  | unbound t =>
      have := h.run θ t hx
      rw [h.run θ' t hx'] at this
      injection this

/-- `switch_to(y)` on the stack `x`: the token of `y` goes to the thread, that
of `x` to the stack `y`, which has to switch `x` out. -/
theorem jump (h : Tokens pc exec queued task tok) {cur : Θ → TaskId Θ T}
    {wrapper : TaskId Θ T → TaskId Θ T} (ht : Threads pc exec cur wrapper) (hx : exec θ = x)
    {ret : SchedRet Θ T A} (hpc : pc x = .switchTo ret y) (hoff : (pc y).off = true)
    (hborn : pc y ≠ .unborn) (hend : (pc y).ended = false) :
    Tokens
      (Function.update (Function.update pc x (.suspended ret (cur θ))) y
        (resumed y (cur θ) (.fcontext x) (pc y)))
      (Function.update exec θ y) queued task
      (setTok (setTok tok y (.run θ)) x (.leaving y)) := by
  have hyx : y ≠ x := fun hyx => ht.not_exec_of_off (θ := θ) hoff (hyx ▸ hx)
  have hcur : cur θ = x := (ht.cur_eq θ).trans hx
  have hnative : ∀ θ', y = .native θ' → θ' = θ := by
    rintro θ' rfl
    exact h.exec_unique ht hx (h.readyNative x θ' (by rw [hpc]; rfl))
  -- the resumed stack switches `x` out, the suspended one has no claims
  obtain ⟨ret', me, hres⟩ : ∃ ret' me, resumed y (cur θ) (.fcontext x) (pc y) =
      .postJump ret' me x (.fcontext x) .clearCurrent := by
    rw [hcur]
    rcases hy : pc y with _ | _ | ⟨ret', old⟩ | _ <;> rw [hy] at hoff
    case unborn => exact absurd hy hborn
    case start => exact ⟨_, _, rfl⟩
    case suspended => exact ⟨_, _, rfl⟩
    all_goals cases hoff
  rw [hres, hcur]
  have hoffclaims := Pc.claims_of_off hoff
  -- the tokens before: `x` is executed here, `y` was taken by `x`
  have htokx : ∀ t, x = .unbound t → tok t = .run θ := fun t hxt => h.run θ t (hx.trans hxt)
  have htoky : ∀ t, y = .unbound t → tok t = .ready x := by
    rintro t rfl
    exact h.ready x t (by rw [hpc]; rfl)
  have htok : ∀ t, y ≠ .unbound t → x ≠ .unbound t →
      setTok (setTok tok y (.run θ)) x (.leaving y) t = tok t := by
    intro t hyt hxt
    rw [setTok_of_ne hxt, setTok_of_ne hyt]
  refine { h with
    run := ?run, queue := ?queue, ready := ?ready, leaving := ?leaving,
    readyNative := ?readyNative, leavingNative := ?leavingNative, runnable := ?runnable,
    saved := ?saved, unborn := ?unborn, ended := ?ended, finished := ?finished }
  -- `y` is run by `θ`, and `x` is leaving until its context is saved
  case run =>
    intro θ' t hθ
    by_cases hθθ : θ' = θ
    · subst hθθ
      rw [Function.update_self] at hθ
      rw [setTok_of_ne (fun hxt => hyx (hθ.trans hxt.symm)), hθ, setTok_self]
    · rw [Function.update_of_ne hθθ] at hθ
      have hrun := h.run θ' t hθ
      have hyt : y ≠ .unbound t := by
        intro hyt
        have := htoky t hyt
        rw [hrun] at this
        cases this
      have hxt : x ≠ .unbound t := by
        intro hxt
        exact hθθ (h.exec_unique ht (hx.trans hxt) hθ)
      rw [htok t hyt hxt]
      exact hrun
  case queue =>
    intro t hq
    have hrun := h.queue t hq
    have hyt : y ≠ .unbound t := by
      intro hyt
      have := htoky t hyt
      rw [hrun] at this
      cases this
    have hxt : x ≠ .unbound t := by
      intro hxt
      have := htokx t hxt
      rw [hrun] at this
      cases this
    rw [htok t hyt hxt]
    exact hrun
  case ready =>
    intro w t hw
    by_cases hwy : w = y
    · simp [hwy, Pc.ready] at hw
    · by_cases hwx : w = x
      · simp [hwx, hyx.symm, Pc.ready] at hw
      · have hrun := h.ready w t (by simpa [hwy, hwx] using hw)
        have hyt : y ≠ .unbound t := by
          intro hyt
          have := htoky t hyt
          rw [hrun] at this
          injection this with this
          exact hwx this
        have hxt : x ≠ .unbound t := by
          intro hxt
          have := htokx t hxt
          rw [hrun] at this
          cases this
        rw [htok t hyt hxt]
        exact hrun
  case leaving =>
    intro w t hw
    by_cases hwy : w = y
    · subst hwy
      have hxt : x = .unbound t := by simpa [Pc.leaving] using hw
      rw [hxt, setTok_self]
    · by_cases hwx : w = x
      · simp [hwx, hyx.symm, Pc.leaving] at hw
      · have hrun := h.leaving w t (by simpa [hwy, hwx] using hw)
        have hyt : y ≠ .unbound t := by
          intro hyt
          have := htoky t hyt
          rw [hrun] at this
          cases this
        have hxt : x ≠ .unbound t := by
          intro hxt
          have := htokx t hxt
          rw [hrun] at this
          cases this
        rw [htok t hyt hxt]
        exact hrun
  case readyNative =>
    intro w θ' hw
    by_cases hwy : w = y
    · simp [hwy, Pc.ready] at hw
    · by_cases hwx : w = x
      · simp [hwx, hyx.symm, Pc.ready] at hw
      · have hex := h.readyNative w θ' (by simpa [hwy, hwx] using hw)
        have hθ : θ' ≠ θ := by
          rintro rfl
          exact hwx (hex.symm.trans hx)
        rwa [Function.update_of_ne hθ]
  case leavingNative =>
    intro w θ' hw
    by_cases hwy : w = y
    · subst hwy
      have hxn : x = .native θ' := by simpa [Pc.leaving] using hw
      have := ht.native θ θ' (hx.trans hxn)
      subst this
      simp
    · by_cases hwx : w = x
      · simp [hwx, hyx.symm, Pc.leaving] at hw
      · have hex := h.leavingNative w θ' (by simpa [hwy, hwx] using hw)
        have hθ : θ' ≠ θ := by
          rintro rfl
          exact hwx (hex.symm.trans hx)
        rwa [Function.update_of_ne hθ]
  case runnable =>
    intro t hq
    by_cases hxt : x = .unbound t
    · rw [hxt, setTok_self] at hq
      rcases hq with hq | ⟨_, hq⟩ <;> cases hq
    · rw [setTok_of_ne hxt] at hq
      by_cases hyt : y = .unbound t
      · rw [hyt, setTok_self] at hq
        rcases hq with hq | ⟨_, hq⟩ <;> cases hq
      · rw [setTok_of_ne hyt] at hq
        exact h.runnable t hq
  case saved =>
    intro w hw hne
    by_cases hwy : w = y
    · simp [hwy, Pc.off] at hw
    · by_cases hwx : w = x
      · subst hwx
        exact .inr ⟨y, by simp [Pc.unsaved]⟩
      · rcases h.saved w (by simpa [hwy, hwx] using hw) (by simpa [hwy, hwx] using hne) with
          hc | ⟨v, hv⟩
        · exact .inl hc
        · have hvy : v ≠ y := by
            rintro rfl
            rw [hoffclaims.2.2] at hv
            cases hv
          have hvx : v ≠ x := by
            rintro rfl
            rw [hpc] at hv
            cases hv
          exact .inr ⟨v, by simpa [hvy, hvx] using hv⟩
  case unborn =>
    intro t hu
    have hyt : TaskId.unbound t ≠ y := by
      intro hyt
      simp [hyt] at hu
    have hxt : TaskId.unbound t ≠ x := by
      intro hxt
      subst hxt
      simp [hyt] at hu
    rw [htok t hyt.symm hxt.symm]
    exact h.unborn t (by simpa [hyt, hxt] using hu)
  case ended =>
    intro t he
    by_cases hyt : TaskId.unbound t = y
    · simp [hyt, Pc.ended] at he
    · by_cases hxt : TaskId.unbound t = x
      · subst hxt
        refine h.ended t ?_
        rw [hpc]
        rw [Function.update_of_ne hyt, Function.update_self] at he
        exact he
      · exact h.ended t (by simpa [hyt, hxt] using he)
  case finished =>
    intro w hw
    have hfin := h.finished w hw
    by_cases hwy : w = y
    · subst hwy
      rw [hend] at hfin
      cases hfin
    · by_cases hwx : w = x
      · subst hwx
        rw [hpc] at hfin
        rw [Function.update_of_ne hwy, Function.update_self]
        exact hfin
      · simpa [hwy, hwx] using hfin

end Tokens

end Scheduler

end Alterstack
