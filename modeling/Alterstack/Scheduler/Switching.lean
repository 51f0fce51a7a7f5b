/-
  Alterstack.Scheduler.Switching — `do_schedule`, `switch_to` and
  `post_jump_fcontext` keep the invariant.

  Main results:
    * `inv_pickStep`, `inv_scheduleStep` — the search for the next task;
    * `inv_switchStep` — the jump;
    * `inv_postJumpStep` — the stores after it, and the enqueueing of the task
      that was left.
-/
import Alterstack.Scheduler.Invariant

namespace Alterstack

namespace Scheduler

open Lib (Seg Layout Machine)
open Awaitable (InsertPc InsertNext insertStep ReleasePc ReleaseNext releaseStep)

variable {Θ T A : Type*}

variable [DecidableEq Θ] [DecidableEq T] {W : TaskId Θ T → Prop} {s : State Θ T A}
  {tok : T → Tok Θ T} {L : Layout (Place Θ T A) (TaskId Θ T)} {θ : Θ} {x y z : TaskId Θ T}
  {p p' : Pc Θ T A} {spurious : Bool}

/-! ## §1. `do_schedule` and `switch_to`. -/

/-- `schedule(current_task)` is entered, or its loop starts again. -/
theorem Inv.enterSchedule (h : Inv W s tok L) (hx : s.exec θ = x) (hpc : s.pc x = p)
    {ret : SchedRet Θ T A} {bg : Θ → Bool} (hret : ret.Of x) (hu : p.unsaved = none)
    (hlist : p.list = none) (hend : (Pc.schedule ret x (nextTaskPc bg θ x)).ended = p.ended)
    (hexit : p ≠ .exited) (ha : ret.awake = true → p.awake = true)
    (hs : ∀ a, ret.waitsOn = some a → p.asleep = some a) :
    Inv W (s.setPc x (.schedule ret x (nextTaskPc bg θ x))) tok L := by
  have hp : (Pc.schedule ret x (nextTaskPc bg θ x)).Plain := plain_schedule_start
  refine h.plain hx hpc ⟨rfl, hret, nextTaskPc_onlyUnbound⟩ hp hu hlist hend hexit
    (h.awake.quiet ?_)
  rw [hpc]
  refine ⟨ha, hs, nofun, ?_⟩
  rw [hp.ready]
  nofun

theorem Inv.setLife (h : Inv W s tok L) {l : Life} (hl : l ≠ .unborn) (z : TaskId Θ T) :
    Inv W (s.setLife z l) tok L := by
  refine ⟨h.threads, h.tokens, h.lists, h.awake, fun t ht => h.life t ?_⟩
  by_cases htz : TaskId.unbound t = z
  · subst htz
    simp only [State.setLife, Function.update_self] at ht
    exact absurd ht hl
  · simpa [State.setLife, htz] using ht

omit [DecidableEq Θ] [DecidableEq T] in
theorem plain_returnPc {ret : SchedRet Θ T A} (hret : ret ≠ .finished) :
    (returnPc ret).Plain ∧ (returnPc ret).ended = false ∧ (returnPc ret).asleep = none ∧
      (returnPc ret).woken = ret.waitsOn ∧ ∀ x, (returnPc ret).Local x := by
  cases ret with
  | finished => exact absurd rfl hret
  | _ => exact ⟨⟨rfl, rfl, rfl, rfl, rfl, rfl, fun _ _ _ => trivial⟩, rfl, rfl, rfl,
      fun _ => trivial⟩

/-- `schedule` or `switch_to` returns to code that runs. -/
theorem Inv.scheduleReturn (h : Inv W s tok L) (hx : s.exec θ = x) (hpc : s.pc x = p)
    {ret : SchedRet Θ T A} (hret : ret ≠ .finished) (hu : p.unsaved = none)
    (hlist : p.list = none) (hend : p.ended = false) (hexit : p ≠ .exited)
    (hrunning : W x → (s.task x).state = .running)
    (hwoken : ∀ a, W x → ret.waitsOn = some a → (s.aw a).isFinished = true) :
    Inv W (scheduleReturn s x ret) tok L := by
  obtain ⟨hp, he, hs, hw, hloc⟩ := plain_returnPc hret
  have hawake : Awake W (Function.update s.pc x (returnPc ret)) s.task s.aw s.insertedIn := by
    refine h.awake.setPc (fun hW _ => hrunning hW) ?_ (fun a hW ha => hwoken a hW (hw ▸ ha)) ?_
    · rw [hs]
      nofun
    · rw [hp.ready]
      nofun
  cases ret with
  | ctor t =>
      exact (h.setLife (by nofun) _).plain hx hpc (hloc x) hp hu hlist (he.trans hend.symm) hexit
        hawake
  | _ => exact h.plain hx hpc (hloc x) hp hu hlist (he.trans hend.symm) hexit hawake

/-- `get_item` has returned a task. -/
theorem inv_dequeue (h : Inv W s tok L) (hx : s.exec θ = x) {ret : SchedRet Θ T A}
    (hpc : s.pc x = .schedule ret x .queue) {t : T} (hq : 0 < s.queued t)
    (hready : p'.ready = some (.unbound t)) (hloc : p'.Local x) (hon : p'.off = false)
    (hl : p'.leaving = none) (hu : p'.unsaved = none)
    (hend : p'.ended = (Pc.schedule ret x .queue).ended) (hlist : p'.list = none)
    (hins : ∀ L f, p'.Inserting L x f) (hsaw : p'.sawFinished = none)
    (hfollows : (Pc.schedule ret x .queue).Follows p') : Good W ((s.dequeue t).setPc x p') := by
  obtain ⟨hothers, hexec, hborn, hrunning⟩ := h.tokens.only_of_queued hq
  have honx : (s.pc x).off = false := hx ▸ h.threads.on θ
  have hoff : (s.pc (.unbound t)).off = true := h.threads.off _ hexec
  -- a queued task is Running, so no wait list has it
  have hun : Unlisted L (.unbound t) := by
    refine h.lists.unlisted (by simp [hrunning]) (fun he => ?_)
    rw [he] at hoff
    cases hoff
  have hfields : ∀ z, (Function.update s.task (.unbound t)
      { s.task (.unbound t) with next := none } z).state = (s.task z).state ∧
      (Function.update s.task (.unbound t)
        { s.task (.unbound t) with next := none } z).context = (s.task z).context := by
    intro z
    by_cases hz : z = .unbound t
    · subst hz
      simp
    · simp [hz]
  refine ⟨Function.update tok t (.ready x), L, h.threads.setPc hx hloc hon, ?_, ?_,
    (h.awake.quiet (hpc ▸ hfollows)).congr (fun z => (hfields z).1),
    fun u hu => h.life_setPc hx u hu⟩
  · refine Tokens.congr ?_ (fun z => (hfields z).1) (fun z => (hfields z).2)
    refine h.tokens.give honx hon (by rw [hu, hpc]; rfl) (by rw [hend, hpc])
      (fun y _ => hothers y) hexec hborn (fun z hz => ?_) hl ?_ (fun hq' => ?_) hrunning
    · rw [hready] at hz
      injection hz with hz
      exact ⟨hz.symm, rfl⟩
    · have := h.tokens.queued_le t
      omega
    · have := h.tokens.queued_le t
      omega
  · refine (h.lists.setFields hun (fun L' g => ?_)).quiet (by rw [hlist, hpc]; rfl) (.inr hlist) ?_
      (hins _ _) (by rw [hsaw]; nofun)
    · cases hp : s.pc (.unbound t) with
      | insert => rw [hp] at hoff; cases hoff
      | _ => trivial
    · rw [hpc]
      nofun

theorem inv_pickStep (h : Inv W s tok L) (hx : s.exec θ = x) {ret : SchedRet Θ T A}
    {me : TaskId Θ T} (hpc : s.pc x = .schedule ret me .queue) {t : Option T} {s' : State Θ T A}
    (hstep : pickStep s x ret me t = some s') : Good W s' := by
  have hloc := h.threads.locals x
  rw [hpc] at hloc
  obtain ⟨rfl, hret, -⟩ := hloc
  cases t with
  | none =>
      injection hstep with hstep
      subst hstep
      have hp : (Pc.schedule ret me
          (if me.isThreadBound then .running else .currentState none)).Plain := by
        split <;> exact plain_schedule (by nofun)
      refine ⟨tok, L, h.plain hx hpc ⟨rfl, hret, ?_⟩ hp rfl rfl rfl nofun
        (h.awake.quiet (hpc ▸ follows_schedule hp))⟩
      split
      · nofun
      next hb => simp [hb]
  | some t =>
      simp only [pickStep] at hstep
      split at hstep
      next hq =>
        injection hstep with hstep
        subst hstep
        split
        next hb =>
          exact inv_dequeue h hx hpc hq rfl ⟨hret, by nofun⟩ rfl rfl rfl rfl rfl
            (fun _ _ => trivial) rfl ⟨fun h => h, fun _ h => h, nofun, nofun⟩
        next hb =>
          exact inv_dequeue h hx hpc hq rfl ⟨rfl, hret, fun _ => by simpa using hb⟩ rfl rfl rfl rfl
            rfl (fun _ _ => trivial) rfl ⟨fun h => h, fun _ h => h, nofun, nofun⟩
      next => cases hstep

omit [DecidableEq Θ] [DecidableEq T] in
/-- `do_schedule` returns false only to a Running task, which has not ended. -/
theorem not_last_of_running (h : Inv W s tok L) {ret : SchedRet Θ T A} {me : TaskId Θ T}
    {pc : SchedPc Θ T} (hpc : s.pc x = .schedule ret me pc)
    (hrunning : (s.task x).state = .running) : ret ≠ .finished := by
  rintro rfl
  have hloc := h.threads.locals x
  rw [hpc] at hloc
  obtain ⟨-, hub, -⟩ := hloc
  cases x with
  | native θ => cases hub
  | unbound t =>
      have := h.tokens.ended t (by rw [hpc]; rfl)
      rw [hrunning] at this
      cases this

/-- A point of `do_schedule` that is about to switch to the native task `n`. -/
theorem Awake.aboutToSwitch (h : Awake W s.pc s.task s.aw s.insertedIn)
    {ret : SchedRet Θ T A} {me : TaskId Θ T} {pc : SchedPc Θ T}
    (hpc : s.pc x = .schedule ret me pc) (ha : p'.awake = ret.awake)
    (hs : p'.asleep = ret.waitsOn) (hw : p'.woken = none) {n : Θ}
    (hr : p'.ready = some (.native n))
    (hn : W (.native n) → (s.task (.native n)).state = .running) :
    Awake W (Function.update s.pc x p') s.task s.aw s.insertedIn := by
  refine h.setPc (fun hW hp => h.awake x hW ?_) (fun a hW hp => h.asleep x a hW ?_) ?_ ?_
  · rw [hpc]
    exact ha.symm.trans hp
  · rw [hpc]
    exact hs.symm.trans hp
  · rw [hw]
    nofun
  · intro θ' hW hθ'
    rw [hr] at hθ'
    cases hθ'
    exact hn hW

theorem inv_scheduleStep (h : Inv W s tok L) (hx : s.exec θ = x) {ret : SchedRet Θ T A}
    {me : TaskId Θ T} {pc : SchedPc Θ T} (hpc : s.pc x = .schedule ret me pc)
    (hok : Orderly W s (θ, .go spurious)) {bg : Θ → Bool}
    {s' : State Θ T A} (hstep : scheduleStep bg s θ x ret me pc = some s') : Good W s' := by
  have hloc := h.threads.locals x
  rw [hpc] at hloc
  obtain ⟨rfl, hret, honly⟩ := hloc
  have hmove : ∀ pc', (∀ z, pc' ≠ .currentState (some z)) →
      (pc'.onlyUnbound = true → me.isThreadBound = false) →
      Good W (s.setPc me (.schedule ret me pc')) := by
    intro pc' hne hub
    have hp : (Pc.schedule ret me pc').Plain := plain_schedule hne
    exact ⟨tok, L, h.plain hx hpc ⟨rfl, hret, hub⟩ hp rfl rfl rfl nofun
      (h.awake.quiet (hpc ▸ follows_schedule hp))⟩
  have hagain : Good W (s.setPc me (.schedule ret me (nextTaskPc bg θ me))) :=
    hmove _ nextTaskPc_ne nextTaskPc_onlyUnbound
  cases pc with
  | native =>
      injection hstep with hstep
      subst hstep
      split
      next hn =>
        -- the thread's own native task is about to be resumed
        refine ⟨tok, L, h.setPc hx hpc ⟨rfl, hret, fun _ => honly rfl⟩ rfl
          (fun z hz => .inr ⟨θ, ?_, hx⟩) (.inl rfl) rfl rfl rfl (.inl rfl) trivial nofun nofun
          (h.awake.aboutToSwitch hpc rfl rfl rfl rfl (fun _ => hn))⟩
        injection hz with hz
        exact hz.symm
      next => exact hmove _ nofun nofun
  | queue => cases hstep
  | currentState nextTask =>
      cases nextTask with
      | some z =>
          injection hstep with hstep
          subst hstep
          exact ⟨tok, L, h.setPc hx hpc ⟨hret, fun _ => honly rfl⟩ rfl (fun w hw => .inl hw)
            (.inl rfl) rfl rfl rfl (.inl rfl) trivial nofun nofun
            (h.awake.quiet (hpc ▸ ⟨fun h => h, fun _ h => h, nofun, fun _ h => h⟩))⟩
      | none =>
          injection hstep with hstep
          subst hstep
          split
          next hstate =>
            have hne : (s.task me).state ≠ .running := by
              rcases hstate with hs | hs <;> rw [hs] <;> nofun
            refine ⟨tok, L, h.setPc hx hpc ⟨hret, fun _ => honly rfl⟩ rfl
              (fun z hz => .inr ⟨θ, ?_, hx⟩) (.inl rfl) rfl rfl rfl (.inl rfl) trivial nofun nofun
              (h.awake.aboutToSwitch hpc rfl rfl rfl rfl
                (fun hW => hok.fallsBack hW me (by rw [hx, hpc]; rfl) hne))⟩
            injection hz with hz
            exact hz.symm
          next => exact hmove _ nofun nofun
  | running =>
      simp only [scheduleStep] at hstep
      split at hstep
      next hrunning =>
        injection hstep with hstep
        subst hstep
        have hlast := not_last_of_running h hpc hrunning
        refine ⟨tok, L, h.scheduleReturn hx hpc hlast rfl rfl ?_ nofun (fun _ => hrunning) ?_⟩
        · cases ret <;> first | rfl | exact absurd rfl hlast
        · exact fun a hW ha => (h.awake.asleep me a hW (by rw [hpc]; exact ha)).2 hrunning
      next =>
        injection hstep with hstep
        subst hstep
        exact hmove _ nofun nofun
  | waiting =>
      injection hstep with hstep
      subst hstep
      split
      · exact hmove _ nofun nofun
      · exact hagain
  | futex =>
      injection hstep with hstep
      subst hstep
      exact hagain

omit [DecidableEq Θ] [DecidableEq T] in
/-- What a stack is about to switch to is suspended or new, its continuation
is saved, and it has not ended. -/
theorem Inv.target (h : Inv W s tok L) (hx : s.exec θ = x) {ret : SchedRet Θ T A}
    (hpc : s.pc x = .switchTo ret y) :
    (s.pc y).off = true ∧ s.pc y ≠ .unborn ∧ (s.pc y).ended = false ∧
      (∀ z, (s.task y).context = .fcontext z → z = y) ∧
      (W y → (s.task y).state = .running) := by
  have hloc := h.threads.locals x
  rw [hpc] at hloc
  cases y with
  | unbound t =>
      obtain ⟨-, hexec, -, hborn, hrunning⟩ :=
        h.tokens.only_of_ready (x := x) (t := t) (by rw [hpc]; rfl)
      refine ⟨h.threads.off _ hexec, hborn, ?_, h.tokens.fcontext _, fun _ => hrunning⟩
      -- a stack that has ended is Finished
      by_contra hend
      have hfin := h.tokens.ended t (by simpa using hend)
      rw [hrunning] at hfin
      cases hfin
  | native θ' =>
      have hready : (s.pc x).ready = some (.native θ') := by rw [hpc]; rfl
      have hθ : θ' = θ := h.tokens.exec_unique h.threads hx (h.tokens.readyNative x θ' hready)
      subst hθ
      have hub := hloc.2 rfl
      have hoff : (s.pc (.native θ')).off = true := by
        refine h.threads.off _ (fun θ'' hθ'' => ?_)
        obtain rfl := h.threads.native θ'' θ' hθ''
        rw [hx.symm.trans hθ''] at hub
        cases hub
      have hlocy := h.threads.locals (.native θ')
      have hrun := fun hW => h.awake.target x θ' hW hready
      have hcontext := h.tokens.fcontext (.native θ')
      -- off, and a native stack is never new: it is suspended in a `schedule`
      rcases hp : s.pc (.native θ') with _ | _ | ⟨ret', old⟩ | _ <;> rw [hp] at hoff hlocy
      case unborn => cases hlocy
      case start => cases hlocy
      case suspended =>
        refine ⟨rfl, nofun, ?_, hcontext, hrun⟩
        cases ret' with
        | finished => cases hlocy.2
        | _ => rfl
      all_goals cases hoff

theorem inv_switchStep [DecidableEq A] (h : Inv W s tok L) (hx : s.exec θ = x)
    {ret : SchedRet Θ T A} (hpc : s.pc x = .switchTo ret y) {s' : State Θ T A}
    (hstep : switchStep s θ x ret y = some s') : Good W s' := by
  obtain ⟨hoff, hborn, hend, hctx, hrunning⟩ := h.target hx hpc
  have hloc := h.threads.locals x
  rw [hpc] at hloc
  have hyx : y ≠ x := fun hyx => h.threads.not_exec_of_off (θ := θ) hoff (hyx ▸ hx)
  have hcur : s.cur θ = x := (h.threads.cur_eq θ).trans hx
  simp only [switchStep] at hstep
  split at hstep
  next z hz =>
    obtain rfl := hctx z hz
    injection hstep with hstep
    subst hstep
    refine ⟨_, L, h.threads.jump hx (fun θ' hθ' => h.tokens.exec_unique h.threads hx hθ') hloc.1
      hoff hborn hend ?_ ?_, h.tokens.jump h.threads hx hpc hoff hborn hend, ?_,
      h.awake.jump hpc hyx hoff hborn hrunning _ _, ?_⟩
    · rintro θ' rfl
      exact h.tokens.exec_unique h.threads hx (h.tokens.readyNative x θ' (by rw [hpc]; rfl))
    · intro w
      split
      · by_cases hw : w = z
        · simp [hw]
        · simpa [hw] using h.threads.wrapper_eq w
      · exact h.threads.wrapper_eq w
    · -- neither the suspended nor the resumed point says anything about lists
      have hres : ∀ p : Pc Θ T A, p.off = true → p ≠ .unborn →
          (resumed z (s.cur θ) (.fcontext x) p).list = p.list ∧
          (resumed z (s.cur θ) (.fcontext x) p).list = none ∧
          (∀ L x f, (resumed z (s.cur θ) (.fcontext x) p).Inserting L x f) ∧
          (resumed z (s.cur θ) (.fcontext x) p).sawFinished = none := by
        intro p hp hpu
        cases p
        case unborn => exact absurd rfl hpu
        case start => exact ⟨rfl, rfl, fun _ _ _ => trivial, rfl⟩
        case suspended => exact ⟨rfl, rfl, fun _ _ _ => trivial, rfl⟩
        all_goals cases hp
      obtain ⟨h1, h2, h3, h4⟩ := hres _ hoff hborn
      have hfirst := h.lists.quiet (x := x) (p := .suspended ret (s.cur θ)) (by rw [hpc]; rfl)
        (.inr rfl) (by rw [hpc]; nofun) trivial nofun
      refine hfirst.quiet ?_ (.inr h2) ?_ ?_ (by rw [h4]; nofun)
      · rw [Function.update_of_ne hyx]
        exact h1
      · rw [Function.update_of_ne hyx]
        intro he
        rw [he] at hoff
        cases hoff
      · cases hp : s.pc z
        case unborn => exact absurd hp hborn
        case start => trivial
        case suspended => trivial
        all_goals (rw [hp] at hoff; cases hoff)
    · intro t ht
      have htu := h.life t ht
      have htz : TaskId.unbound t ≠ z := fun htz => hborn (htz ▸ htu)
      have htx : TaskId.unbound t ≠ x := by
        rintro rfl
        rw [hpc] at htu
        cases htu
      simpa [htz, htx] using htu
  next => cases hstep

/-! ## §2. `post_jump_fcontext`. -/

omit [DecidableEq Θ] [DecidableEq T] in
/-- Nobody else is about to switch to the executed task. -/
theorem Inv.not_target (h : Inv W s tok L) (hx : s.exec θ = x) (y : TaskId Θ T) (θ' : Θ)
    (hyx : y ≠ x) (hr : (s.pc y).ready = some (.native θ')) : TaskId.native θ' ≠ x := by
  rintro rfl
  have hy := h.tokens.readyNative y θ' hr
  rw [h.threads.thread_eq hx] at hy
  exact hyx hy.symm

/-- The executed stack `x` writes its own task and moves. -/
theorem Inv.own (h : Inv W s tok L) (hx : s.exec θ = x) (hpc : s.pc x = p)
    {f : TaskBase (TaskId Θ T)} (hloc : p'.Local x) (hon : p'.off = false)
    (hr : p'.ready = none) (hl : p'.leaving = none ∨ p'.leaving = p.leaving)
    (hu : p'.unsaved = p.unsaved) (hlist : p'.list = p.list)
    (hrel : p'.releasing = p.releasing ∨ p'.list = none)
    (hf : ∀ y, f.context = .fcontext y → y = x)
    (hend : f.state = .finished ↔ p'.ended = true)
    (hnext : f.next = (s.task x).next ∨ Unlisted L x)
    (hstate : ∀ q, x ∈ L.at_ q → f.state = .waiting ∨ (p' = .exited ∧ ¬ W x))
    (hins : p'.Inserting L x f)
    (hsaw : ∀ a, p'.sawFinished = some a → (s.aw a).isFinished = true)
    (hawake : W x → p'.awake = true → f.state = .running) (hasleep : p'.asleep = none)
    (hwoken : ∀ a, W x → p'.woken = some a → (s.aw a).isFinished = true) :
    Inv W ((s.setTask x f).setPc x p') tok L := by
  subst hpc
  have honx : (s.pc x).off = false := hx ▸ h.threads.on θ
  refine ⟨h.threads.setPc hx hloc hon, ?_, ?_, ?_, fun t ht => h.life_setPc hx t ht⟩
  · refine h.tokens.move hx honx hon (by rw [hr]; nofun) (fun z hz => ?_) hu hf
      (fun _ _ he => hend.mpr he) hend.mp
    -- no stack starts to claim another one here
    rcases hl with hl | hl <;> rw [hl] at hz
    · cases hz
    · exact hz
  · exact h.lists.move hlist hrel hnext hstate hins hsaw
  · exact h.awake.move (h.not_target hx) hawake (by rw [hasleep]; nofun) hwoken
      (by rw [hr]; nofun)

omit [DecidableEq Θ] [DecidableEq T] in
/-- An executed task that has not ended is not Finished. -/
theorem Inv.not_finished (h : Inv W s tok L) (hpc : s.pc x = p) (hend : p.ended = false) :
    (s.task x).state ≠ .finished := by
  intro hs
  have := h.tokens.finished x hs
  rw [hpc, hend] at this
  cases this

omit [DecidableEq Θ] [DecidableEq T] in
theorem Inv.waiting_of_listed (h : Inv W s tok L) (hpc : s.pc x = p) (hexit : p ≠ .exited)
    {q : Place Θ T A} (hq : x ∈ L.at_ q) : (s.task x).state = .waiting :=
  (h.lists.listed q x hq).resolve_right (fun he => hexit (hpc.symm.trans he.1))

/-- `enqueue_unbound_task` by a stack that has the token of the task. -/
theorem Inv.enqueue (h : Inv W s tok L) (hx : s.exec θ = x) (hpc : s.pc x = p)
    (hready : p.ready = some z) (hz : z.isThreadBound = false) (hp'r : p'.ready = none)
    (hloc : p'.Local x) (hon : p'.off = false) (hl : p'.leaving = none)
    (hu : p'.unsaved = p.unsaved) (hend : p'.ended = p.ended) (hlist : p'.list = p.list)
    (hrel : p'.releasing = p.releasing ∨ p'.list = none)
    (hins : p'.Inserting L x (s.task x))
    (hsaw : ∀ a, p'.sawFinished = some a → (s.aw a).isFinished = true) (hexit : p ≠ .exited)
    (ha : p'.awake = true → p.awake = true) (hs : p'.asleep = none)
    (hw : ∀ a, p'.woken = some a → p.woken = some a) :
    Good W ((s.enqueue z).setPc x p') := by
  subst hpc
  cases z with
  | native θ' => cases hz
  | unbound t =>
      obtain ⟨hothers, hexec, hq, hborn, hrunning⟩ := h.tokens.only_of_ready hready
      have honx : (s.pc x).off = false := hx ▸ h.threads.on θ
      refine ⟨Function.update tok t .queue, L, h.threads.setPc hx hloc hon, ?_,
        h.lists.quiet hlist hrel hexit hins hsaw, h.awake.quiet ⟨ha, ?_, hw, ?_⟩,
        fun u hu => h.life_setPc hx u hu⟩
      -- the token goes from `x` to the queue
      · exact h.tokens.give honx hon hu hend hothers hexec hborn (by rw [hp'r]; nofun) hl
          (by omega) (fun _ => rfl) hrunning
      · rw [hs]
        nofun
      · rw [hp'r]
        nofun

theorem inv_postJumpStep (h : Inv W s tok L) (hx : s.exec θ = x) {ret : SchedRet Θ T A}
    {me prev : TaskId Θ T} {fctx : Context (TaskId Θ T)} {pc : PostPc}
    (hpc : s.pc x = .postJump ret me prev fctx pc) :
    Good W (postJumpStep s x ret me prev fctx pc) := by
  have hloc := h.threads.locals x
  rw [hpc] at hloc
  obtain ⟨rfl, rfl, hret, henq⟩ := hloc
  have honx : (s.pc me).off = false := hx ▸ h.threads.on θ
  have hnf := h.not_finished hpc rfl
  have hrunning : W me → (s.task me).state = .running := fun hW =>
    h.awake.awake me hW (by rw [hpc]; rfl)
  have hwoken : ∀ a, W me → ret.waitsOn = some a → (s.aw a).isFinished = true := fun a hW ha =>
    h.awake.woken me a hW (by rw [hpc]; exact ha)
  cases pc with
  | clearCurrent =>
      refine ⟨tok, L, h.own hx hpc ⟨rfl, rfl, hret, nofun⟩ rfl rfl (.inr rfl) rfl rfl (.inl rfl)
        nofun ⟨fun hs => absurd hs hnf, nofun⟩ (.inl rfl)
        (fun q hq => .inl (h.waiting_of_listed hpc nofun hq)) trivial nofun
        (fun hW _ => hrunning hW) rfl hwoken⟩
  | savePrev =>
      have hfields : ∀ w, (Function.update s.task prev
          { s.task prev with context := .fcontext prev } w).state = (s.task w).state ∧
          (Function.update s.task prev
            { s.task prev with context := .fcontext prev } w).next = (s.task w).next := by
        intro w
        by_cases hw : w = prev
        · subst hw
          simp
        · simp [hw]
      refine ⟨tok, L, h.threads.setPc hx ⟨rfl, rfl, hret, nofun⟩ rfl, ?_, ?_,
        Awake.congr ?_ (fun w => (hfields w).1), fun t ht => h.life_setPc hx t ht⟩
      · exact h.tokens.save (by rw [hpc]; rfl) rfl rfl (by rw [hpc]; rfl) (by rw [hpc]; rfl)
      · have hquiet := h.lists.quiet (x := me)
          (p := .postJump ret me prev (.fcontext prev) .prevState) (by rw [hpc]; rfl) (.inr rfl)
          (by rw [hpc]; nofun) trivial nofun
        exact hquiet.congr (fun w => (hfields w).1) (fun w => (hfields w).2)
      · exact h.awake.quiet (hpc ▸ ⟨fun h => h, fun _ h => h, fun _ h => h, nofun⟩)
  | prevState =>
      simp only [postJumpStep]
      split
      next hrun =>
        -- the stack keeps the task, now to enqueue it
        cases prev with
        | native θ' => cases hrun.1
        | unbound t =>
            obtain ⟨hothers, hexec, hq, hborn⟩ :=
              h.tokens.only_of_leaving (x := me) (t := t) (by rw [hpc]; rfl)
            have := h.tokens.give (k := .ready me) (q := s.queued t)
              (p := .postJump ret me (.unbound t) (.fcontext (.unbound t)) .enqueue)
              honx rfl (by rw [hpc]; rfl) (by rw [hpc]; rfl) hothers hexec hborn
              (fun z hz => by injection hz with hz; exact ⟨hz.symm, rfl⟩) rfl (by omega)
              (by omega) hrun.2
            rw [Function.update_eq_self] at this
            exact ⟨_, L, h.threads.setPc hx ⟨rfl, rfl, hret, fun _ => rfl⟩ rfl, this,
              h.lists.quiet (by rw [hpc]; rfl) (.inr rfl) (by rw [hpc]; nofun) trivial nofun,
              h.awake.quiet (hpc ▸ ⟨fun h => h, fun _ h => h, fun _ h => h, nofun⟩),
              fun u hu => h.life_setPc hx u hu⟩
      next => exact ⟨tok, L, h.scheduleReturn hx hpc hret rfl rfl rfl nofun hrunning hwoken⟩
  | enqueue =>
      obtain ⟨hp, he, hs, hw, hl⟩ := plain_returnPc hret
      have hgood := h.enqueue hx hpc rfl (henq rfl) hp.ready (hl me) hp.on hp.leaving
        hp.unsaved he hp.list (.inr hp.list) (hp.inserting _ _ _)
        (by rw [hp.sawFinished]; nofun) nofun (fun _ => rfl) hs
        (fun a ha => by rw [hw] at ha; exact ha)
      cases ret with
      | ctor t =>
          obtain ⟨tok', L', h'⟩ := hgood
          exact ⟨tok', L', h'.setLife (l := .alive) nofun (.unbound t)⟩
      | _ => exact hgood

end Scheduler

end Alterstack
