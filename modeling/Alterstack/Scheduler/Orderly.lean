/-
  Alterstack.Scheduler.Orderly — orderly runs keep the invariant.

  Main results:
    * `inv_step` — every orderly step keeps the invariant;
    * `inv_reach` — it holds in every state that orderly runs reach.
-/
import Alterstack.Scheduler.Releasing

namespace Alterstack

namespace Scheduler

open Lib (Seg Layout Machine)
open Awaitable (InsertPc InsertNext insertStep ReleasePc ReleaseNext releaseStep)

variable {Θ T A : Type*}

variable [DecidableEq Θ] [DecidableEq T] {W : TaskId Θ T → Prop} {s : State Θ T A}
  {tok : T → Tok Θ T} {L : Layout (Place Θ T A) (TaskId Θ T)} {θ : Θ} {x y z : TaskId Θ T}
  {p p' : Pc Θ T A} {spurious : Bool} [DecidableEq A]

/-! ## §1. Accesses and actions. -/

theorem inv_goStep (hunbound : ∀ t, W (.unbound t)) (h : Inv W s tok L) (hx : s.exec θ = x)
    {bg : Θ → Bool} (hok : Orderly W s (θ, .go spurious)) {s' : State Θ T A}
    (hstep : goStep bg s θ x spurious (s.pc x) = some s') : Good W s' := by
  have hcur : s.cur θ = x := (h.threads.cur_eq θ).trans hx
  have hloc := h.threads.locals x
  cases hpc : s.pc x with
  | unborn => rw [hpc] at hstep; cases hstep
  | start => rw [hpc] at hstep; cases hstep
  | suspended => rw [hpc] at hstep; cases hstep
  | user => rw [hpc] at hstep; cases hstep
  | unreachable => rw [hpc] at hstep; cases hstep
  | exited => rw [hpc] at hstep; cases hstep
  | insert a me pc =>
      rw [hpc] at hstep
      injection hstep with hstep
      subst hstep
      exact inv_insertionStep h hx hpc hok
  | waitRet a inserted =>
      rw [hpc] at hstep
      injection hstep with hstep
      subst hstep
      exact ⟨tok, L, h.code hx hpc trivial rfl rfl rfl rfl rfl⟩
  | joinRet t =>
      rw [hpc] at hstep
      injection hstep with hstep
      subst hstep
      exact ⟨tok, L, h.code hx hpc trivial rfl rfl rfl rfl rfl⟩
  | joinState t =>
      rw [hpc] at hstep
      injection hstep with hstep
      subst hstep
      refine ⟨tok, L, ?_⟩
      split
      · exact h.code hx hpc trivial rfl rfl rfl rfl rfl
      · exact h.code hx hpc hcur rfl rfl rfl rfl rfl
  | schedule ret me pc =>
      rw [hpc] at hstep
      exact inv_scheduleStep h hx hpc hok hstep
  | switchTo ret new =>
      rw [hpc] at hstep
      exact inv_switchStep h hx hpc hstep
  | postJump ret me prev fctx pc =>
      rw [hpc] at hstep
      injection hstep with hstep
      subst hstep
      exact inv_postJumpStep h hx hpc
  | release ret a pc =>
      rw [hpc] at hstep
      injection hstep with hstep
      subst hstep
      exact inv_releasingStep h hx hpc
  | addState ret a z delayed =>
      rw [hpc] at hstep
      injection hstep with hstep
      subst hstep
      exact inv_addStateStep h hx hpc (hok.wakes z (by rw [hx, hpc]; rfl))
  | addNotify ret a taskList delayed z =>
      rw [hpc] at hstep hloc
      obtain ⟨hret, rfl⟩ := hloc
      injection hstep with hstep
      subst hstep
      rw [nextWaiting_none]
      exact ⟨tok, L, h.next hx hpc hret rfl rfl rfl rfl rfl nofun rfl⟩
  | addContext ret a taskList delayed z =>
      rw [hpc] at hstep
      injection hstep with hstep
      subst hstep
      exact inv_addContextStep h hx hpc
  | addEnqueue ret a taskList delayed z =>
      rw [hpc] at hstep hloc
      obtain ⟨hret, rfl, hz⟩ := hloc
      injection hstep with hstep
      subst hstep
      rw [nextWaiting_none]
      have hn := nextPc_spec hret a taskList
      refine h.enqueue hx hpc rfl hz hn.ready hn.loc hn.on hn.leaving hn.unsaved hn.ended hn.list
        hn.releasing (hn.inserting _ _ _) (fun b hb => ?_) nofun (fun _ => rfl) hn.asleep
        (by rw [hn.woken]; nofun)
      rw [hn.sawFinished b hb]
      exact h.lists.sawFinished x a (by rw [hpc]; rfl)
  | delayedContext => rw [hpc] at hloc; exact hloc.elim
  | delayedEnqueue => rw [hpc] at hloc; exact hloc.elim
  | finishState me =>
      rw [hpc] at hstep hloc
      obtain ⟨rfl, hub⟩ := hloc
      injection hstep with hstep
      subst hstep
      have hplain : (Pc.schedule .finished me (nextTaskPc bg θ me) : Pc Θ T A).Plain :=
        plain_schedule_start
      -- the executed task is Running, so it is in no list
      have hun : Unlisted L me := by
        cases me with
        | native θ' => cases hub
        | unbound t =>
            have := h.awake.awake _ (hunbound t) (by rw [hpc]; rfl)
            exact h.lists.unlisted (by simp [this]) (by rw [hpc]; nofun)
      exact ⟨tok, L, h.own hx hpc ⟨rfl, hub, nextTaskPc_onlyUnbound⟩ rfl hplain.ready
        (.inl hplain.leaving) hplain.unsaved hplain.list (.inr hplain.list)
        (h.tokens.fcontext me) ⟨fun _ => rfl, fun _ => rfl⟩ (.inl rfl)
        (fun q hq => absurd hq (hun q)) (hplain.inserting _ _ _)
        (by rw [hplain.sawFinished]; nofun) nofun rfl nofun⟩
  | exitState me =>
      rw [hpc] at hstep hloc
      obtain ⟨rfl, hb⟩ := hloc
      injection hstep with hstep
      subst hstep
      -- a task of `W` is Running here, so it is in no list
      have hlisted : ∀ q, me ∈ L.at_ q → ¬ W me := by
        intro q hq hW
        have hrunning := h.awake.awake me hW (by rw [hpc]; rfl)
        exact h.lists.unlisted (by simp [hrunning]) (by rw [hpc]; nofun) q hq
      have hown : Inv W ((s.setTask me { s.task me with state := .finished }).setPc me .exited)
          tok L :=
        h.own hx hpc hb rfl rfl (.inl rfl) rfl rfl (.inl rfl) (h.tokens.fcontext me)
          ⟨fun _ => rfl, fun _ => rfl⟩ (.inl rfl) (fun q hq => .inr ⟨rfl, hlisted q hq⟩) trivial
          nofun nofun rfl nofun
      exact ⟨tok, L, hown.setLife (l := .destroyed) nofun me⟩
  | dtorState t =>
      rw [hpc] at hstep
      simp only [goStep] at hstep
      split at hstep <;> injection hstep with hstep <;> subst hstep
      · exact ⟨tok, L, h.code hx hpc trivial rfl rfl rfl rfl rfl⟩
      · unfold schedule
        rw [hcur]
        exact ⟨tok, L, h.enterSchedule hx hpc trivial rfl rfl rfl nofun (fun _ => rfl) nofun⟩
  | dtorContext t =>
      rw [hpc] at hstep
      simp only [goStep] at hstep
      split at hstep <;> injection hstep with hstep <;> subst hstep
      · unfold schedule
        rw [hcur]
        exact ⟨tok, L, h.enterSchedule hx hpc trivial rfl rfl rfl nofun (fun _ => rfl) nofun⟩
      · exact ⟨tok, L, h.code hx hpc trivial rfl rfl rfl rfl rfl⟩
  | dtorFree t =>
      rw [hpc] at hstep
      injection hstep with hstep
      subst hstep
      exact ⟨tok, L, (h.setLife (l := .destroyed) nofun (.unbound t)).code hx hpc trivial
        rfl rfl rfl rfl rfl⟩

omit [DecidableEq A] in
/-- A task is constructed, and its creator is about to switch to it. -/
theorem inv_create (hunbound : ∀ t, W (.unbound t)) (h : Inv W s tok L) (hx : s.exec θ = x)
    (hpc : s.pc x = .user) {t : T} (ht : s.life (.unbound t) = .unborn) :
    Good W ((((s.setTask (.unbound t) { context := .fcontext (.unbound t) }).setLife (.unbound t)
      .constructing).setPc (.unbound t) .start).setPc x (.switchTo (.ctor t) (.unbound t))) := by
  have hborn := h.life t ht
  have hoff : (s.pc (.unbound t)).off = true := by rw [hborn]; rfl
  obtain ⟨hrunning, hidle⟩ := h.tokens.unborn t hborn
  have htx : x ≠ .unbound t := by
    rintro rfl
    rw [hborn] at hpc
    cases hpc
  -- first the new task, then the creator
  have h1 : Inv W (((s.setTask (.unbound t) { context := .fcontext (.unbound t) }).setPc
      (.unbound t) .start).setLife (.unbound t) .constructing) tok L := by
    refine ⟨h.threads.create hoff, h.tokens.construct hborn, ?_, h.awake.construct t _, ?_⟩
    · have hun : Unlisted L (.unbound t) :=
        h.lists.unlisted (by simp [hrunning]) (by rw [hborn]; exact fun he => by cases he)
      refine (h.lists.setFields hun (fun L' g => ?_)).quiet (by rw [hborn]; rfl) (.inr rfl)
        (by rw [hborn]; exact fun he => by cases he) trivial (fun _ hf => by cases hf)
      rw [hborn]
      trivial
    · intro u hu
      by_cases hut : u = t
      · subst hut
        simp [State.setLife] at hu
      · simp only [State.setLife, State.setPc, State.setTask] at hu ⊢
        rw [Function.update_of_ne (by simpa using hut)] at hu ⊢
        exact h.life u hu
  generalize hs1 : ((s.setTask (.unbound t) { context := .fcontext (.unbound t) }).setPc
    (.unbound t) .start).setLife (.unbound t) .constructing = s1 at h1
  have hx1 : s1.exec θ = x := by subst hs1; exact hx
  have hpc1 : s1.pc x = .user := by
    subst hs1
    simpa [State.setPc, State.setLife, State.setTask, htx] using hpc
  have hpct : s1.pc (.unbound t) = .start := by
    subst hs1
    simp [State.setPc, State.setLife]
  have honx : (s1.pc x).off = false := by rw [hpc1]; rfl
  -- nobody has a claim on an idle task
  have hexec : ∀ θ', s1.exec θ' ≠ .unbound t := by
    intro θ' hθ'
    have := h1.tokens.run θ' t hθ'
    rw [hidle] at this
    cases this
  have hothers : ∀ y, y ≠ x → (s1.pc y).ready ≠ some (.unbound t) ∧
      (s1.pc y).leaving ≠ some (.unbound t) := by
    refine fun y _ => ⟨fun hy => ?_, fun hy => ?_⟩
    · have := h1.tokens.ready y t hy
      rw [hidle] at this
      cases this
    · have := h1.tokens.leaving y t hy
      rw [hidle] at this
      cases this
  have hq : s1.queued t = 0 := by
    by_contra hq
    have := h1.tokens.queue t (Nat.pos_of_ne_zero hq)
    rw [hidle] at this
    cases this
  have htokens := h1.tokens.give (x := x) (t := t) (p := .switchTo (.ctor t) (.unbound t)) (q := 0)
    (k := .ready x) honx rfl (by rw [hpc1]; rfl) (by rw [hpc1]; rfl) hothers hexec
    (by rw [hpct]; exact fun he => by cases he)
    (fun z hz => by injection hz with hz; exact ⟨hz.symm, rfl⟩) rfl
    (by omega) (by omega) (h1.awake.awake _ (hunbound t) (by rw [hpct]; rfl))
  rw [← hq, Function.update_eq_self] at htokens
  have hlists := h1.lists.quiet (x := x) (p := .switchTo (.ctor t) (.unbound t))
    (by rw [hpc1]; rfl) (.inr rfl) (by rw [hpc1]; exact fun he => by cases he) trivial
    (fun _ hf => by cases hf)
  have hawake := h1.awake.quiet (x := x) (p := .switchTo (.ctor t) (.unbound t))
    (hpc1 ▸ ⟨fun _ => rfl, fun _ hs => (by cases hs), fun _ hw => (by cases hw),
      fun _ hr => (by cases hr)⟩)
  have h2 : Inv W (s1.setPc x (.switchTo (.ctor t) (.unbound t))) (Function.update tok t (.ready x))
      L := ⟨h1.threads.setPc hx1 ⟨trivial, fun hb => by cases hb⟩ rfl, htokens, hlists, hawake,
    fun u hu => h1.life_setPc hx1 u hu⟩
  subst hs1
  exact ⟨_, L, h2⟩

omit [DecidableEq A] in
theorem inv_actionStep (hunbound : ∀ t, W (.unbound t)) (h : Inv W s tok L) (hx : s.exec θ = x)
    (hpc : s.pc x = .user) {bg : Θ → Bool} {action : Action T A} {s' : State Θ T A}
    (hstep : actionStep bg s θ x action = some s') : Good W s' := by
  have hcur : s.cur θ = x := (h.threads.cur_eq θ).trans hx
  cases action with
  | wait a =>
      simp only [actionStep] at hstep
      split at hstep
      next => cases hstep
      next =>
        injection hstep with hstep
        subst hstep
        exact ⟨tok, L, h.code hx hpc hcur rfl rfl rfl rfl rfl⟩
  | release a =>
      simp only [actionStep] at hstep
      split at hstep
      next => cases hstep
      next =>
        injection hstep with hstep
        subst hstep
        exact ⟨tok, L, h.code hx hpc trivial rfl rfl rfl rfl rfl⟩
  | join t =>
      simp only [actionStep] at hstep
      split at hstep
      next => cases hstep
      next =>
        injection hstep with hstep
        subst hstep
        exact ⟨tok, L, h.code hx hpc trivial rfl rfl rfl rfl rfl⟩
  -- `yield` enters `schedule` with the state still Running
  | yield =>
      injection hstep with hstep
      subst hstep
      unfold schedule
      rw [hcur]
      exact ⟨tok, L, h.enterSchedule hx hpc trivial rfl rfl rfl (fun he => by cases he)
        (fun _ => rfl) (fun _ hw => by cases hw)⟩
  | create t =>
      simp only [actionStep] at hstep
      split at hstep
      next => cases hstep
      next hguard =>
        injection hstep with hstep
        subst hstep
        simp only [ne_eq, not_or, not_not] at hguard
        exact inv_create hunbound h hx hpc hguard.2
  -- the destructor starts on an object that is alive
  | destroy t =>
      simp only [actionStep] at hstep
      split at hstep
      next => cases hstep
      next =>
        injection hstep with hstep
        subst hstep
        have hdying := h.setLife (l := .dying) (fun hl => by cases hl) (.unbound t)
        exact ⟨tok, L, hdying.code hx hpc trivial rfl rfl rfl rfl rfl⟩
  | finish =>
      cases x with
      | native θ' => cases hstep
      | unbound t =>
          injection hstep with hstep
          subst hstep
          have hw := h.threads.wrapper_eq (.unbound t)
          have : Inv W (s.setPc (.unbound t)
              (.release (.finish (.unbound t)) (.own (.unbound t)) .load)) tok L :=
            h.code hx hpc ⟨rfl, rfl⟩ rfl rfl rfl rfl rfl
          rw [hw]
          exact ⟨tok, L, this.threads, this.tokens, this.lists, this.awake, this.life⟩
  | exit =>
      cases x with
      | native θ' =>
          injection hstep with hstep
          subst hstep
          exact ⟨tok, L, h.code hx hpc ⟨rfl, rfl⟩ rfl rfl rfl rfl rfl⟩
      | unbound t => cases hstep

/-! ## §2. All steps. -/

/-- **Every orderly step keeps the invariant.** -/
theorem inv_step (hunbound : ∀ t, W (.unbound t)) {bg : Θ → Bool} {l : Label Θ T A}
    {s' : State Θ T A} (h : Good W s) (hok : Orderly W s l) (hstep : step bg s l = some s') :
    Good W s' := by
  obtain ⟨tok, L, h⟩ := h
  obtain ⟨θ, c⟩ := l
  cases c with
  | go spurious =>
      exact inv_goStep hunbound h rfl hok (by simpa only [step] using hstep)
  | pick t =>
      cases hpc : s.pc (s.exec θ) with
      | schedule ret me pc =>
          simp only [step, hpc] at hstep
          cases pc with
          | queue => exact inv_pickStep h rfl hpc hstep
          | _ => cases hstep
      | _ =>
          simp only [step, hpc] at hstep
          cases hstep
  | act action =>
      cases hpc : s.pc (s.exec θ) with
      | user =>
          simp only [step, hpc] at hstep
          exact inv_actionStep hunbound h rfl hpc hstep
      | _ =>
          simp only [step, hpc] at hstep
          cases hstep

/-- The invariant holds in every state that orderly runs reach. -/
theorem inv_reach (hunbound : ∀ t, W (.unbound t)) {bg : Θ → Bool}
    {ok : State Θ T A → Label Θ T A → Prop} (hok : ∀ s l, Good W s → ok s l → Orderly W s l)
    (h : (machine T A bg).Reach ok s) : Good W s := by
  refine Machine.Reach.invariant (M := machine T A bg) (I := Good W) ?_ ?_ h
  · rintro s rfl
    exact inv_init
  · intro s l t hs hokl hstep
    exact inv_step hunbound hs (hok s l hs hokl) hstep

end Scheduler

end Alterstack
