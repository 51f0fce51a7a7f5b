/-
  Alterstack.Scheduler.Joining — `join` and the destructor.

  `m_awaitable` of a `Task` is released at the end of `_run_wrapper` and at the
  beginning of `~Task`.  A destructor that is entered while the function of the
  task still runs therefore lets every joiner go.

  Main results:
    * `joiner_woken_early` — a run in which it does;
    * `joins_after_return` — if destructors are entered only after the function
      has returned, joiners go on only after it as well.
-/
import Alterstack.Scheduler.Finished

namespace Alterstack

namespace Scheduler

open Lib (Machine Layout)
open OsThread

variable {Θ T A : Type*}

/-! ## §1. Releases of `m_awaitable`. -/

/-- The Awaitable that is released from there. -/
def ReleaseRet.Releases (a : AwId Θ T A) : ReleaseRet Θ T → Prop
  | .user => ∃ b, a = .user b
  | .dtor t => a = .own (.unbound t)
  | .finish current => a = .own current
  | .exit this => a = .own this

/-- A stack that is releasing is in the calls around it, too. -/
theorem Pc.around_release {p : Pc Θ T A} {x : TaskId Θ T} {rel : ReleaseRet Θ T}
    {a : AwId Θ T A} (hloc : p.Local x) (h : .release rel a ∈ p.calls) :
    rel.Of x ∧ ∀ c ∈ rel.calls, c ∈ p.calls := by
  have hmem : ∀ {rel' : ReleaseRet Θ T} {b : AwId Θ T A},
      Call.release rel a ∈ Call.release rel' b :: rel'.calls → rel = rel' := by
    intro rel' b hm
    rcases List.mem_cons.mp hm with hm | hm
    · injection hm
    · cases rel' with
      | dtor t => simp [ReleaseRet.calls] at hm
      | finish me => simp [ReleaseRet.calls] at hm
      | _ => cases hm
  cases p with
  | release rel' b pc =>
      obtain rfl := hmem h
      exact ⟨hloc, fun _ hc => .tail _ hc⟩
  | addState rel' b z delayed =>
      obtain rfl := hmem h
      exact ⟨hloc.1, fun _ hc => .tail _ hc⟩
  | addNotify rel' b taskList delayed z =>
      obtain rfl := hmem h
      exact ⟨hloc.1, fun _ hc => .tail _ hc⟩
  | addContext rel' b taskList delayed z =>
      obtain rfl := hmem h
      exact ⟨hloc.1, fun _ hc => .tail _ hc⟩
  | addEnqueue rel' b taskList delayed z =>
      obtain rfl := hmem h
      exact ⟨hloc.1, fun _ hc => .tail _ hc⟩
  | delayedContext => exact hloc.elim
  | delayedEnqueue => exact hloc.elim
  | insert b me pc =>
      cases b <;> simp [Pc.calls, AwId.calls] at h
  | schedule ret me pc => cases ret <;> simp [Pc.calls, SchedRet.calls] at h
  | switchTo ret new => cases ret <;> simp [Pc.calls, SchedRet.calls] at h
  | suspended ret me => cases ret <;> simp [Pc.calls, SchedRet.calls] at h
  | postJump ret me prev fctx pc => cases ret <;> simp [Pc.calls, SchedRet.calls] at h
  | _ => simp [Pc.calls] at h

variable [DecidableEq Θ] [DecidableEq T] [DecidableEq A] {W : TaskId Θ T → Prop}
  {s s' : State Θ T A} {bg : Θ → Bool} {l : Label Θ T A}

/-- In every run a release is made where it belongs. -/
theorem releases_step (hs : ∀ y rel a, .release rel a ∈ (s.pc y).calls → rel.Releases a)
    (hstep : step bg s l = some s') (y : TaskId Θ T) (rel : ReleaseRet Θ T) (a : AwId Θ T A)
    (h : .release rel a ∈ (s'.pc y).calls) : rel.Releases a := by
  rcases step_calls hstep h with h | ⟨-, action, -, -, h⟩
  · exact hs y rel a h
  · cases action with
    | release b =>
        obtain ⟨rfl, rfl⟩ : rel = .user ∧ a = .user b := by simpa [Action.calls] using h
        exact ⟨b, rfl⟩
    | destroy t =>
        obtain ⟨rfl, rfl⟩ : rel = .dtor t ∧ a = .own (.unbound t) := by
          simpa [Action.calls] using h
        rfl
    | finish =>
        obtain ⟨rfl, rfl⟩ : rel = .finish (s.wrapper y) ∧ a = .own (s.wrapper y) := by
          simpa [Action.calls] using h
        rfl
    | exit =>
        obtain ⟨rfl, rfl⟩ : rel = .exit y ∧ a = .own y := by simpa [Action.calls] using h
        rfl
    | _ => simp [Action.calls] at h

/-! ## §2. What shows that a function has returned. -/

/-- The task whose destructor the program enters. -/
def Choice.destroys : Choice T A → Option T
  | .act (.destroy t) => some t
  | _ => none

/-- The destructor is entered only after the function of the task has
returned. -/
def DestroysReturned (s : State Θ T A) (l : Label Θ T A) : Prop :=
  ∀ t ∈ l.2.destroys, s.returned t = true

/-- The function of a task has returned as soon as its `_run_wrapper` goes on,
its state is Finished, its Awaitable is finished or about to be. -/
structure Returned (s : State Θ T A) : Prop where
  releases : ∀ y rel a, .release rel a ∈ (s.pc y).calls → rel.Releases a
  finish : ∀ t, .finish ∈ (s.pc (.unbound t)).calls → s.returned t = true
  dtor : ∀ y t a, .release (.dtor t) a ∈ (s.pc y).calls → s.returned t = true
  finished : ∀ t, (s.task (.unbound t)).state = .finished → s.returned t = true
  awaitable : ∀ t, (s.aw (.own (.unbound t))).isFinished = true → s.returned t = true
  joinRet : ∀ y t, s.pc y = .joinRet t → s.returned t = true

omit [DecidableEq Θ] [DecidableEq T] [DecidableEq A] in
theorem returned_init : Returned (initial : State Θ T A) where
  releases := by rintro (_ | _) rel a h <;> cases h
  finish := nofun
  dtor := by rintro (_ | _) t a h <;> cases h
  finished := nofun
  awaitable := nofun
  joinRet := by rintro (_ | _) t h <;> cases h

theorem Returned.finish_step (hs : Returned s) (hstep : step bg s l = some s') {t : T}
    (h : .finish ∈ (s'.pc (.unbound t)).calls) : s'.returned t = true := by
  rcases step_calls hstep h with h | ⟨-, action, -, hact, h⟩
  · exact step_returned hstep (hs.finish t h)
  · obtain rfl : action = .finish := by
      cases action <;> simp [Action.calls] at h ⊢
    obtain ⟨u, hu, hret⟩ := hact.finish rfl
    cases hu
    exact hret

theorem Returned.dtor_step (hs : Returned s) (hok : DestroysReturned s l)
    (hstep : step bg s l = some s') {y : TaskId Θ T} {t : T} {a : AwId Θ T A}
    (h : .release (.dtor t) a ∈ (s'.pc y).calls) : s'.returned t = true := by
  rcases step_calls hstep h with h | ⟨-, action, hl, -, h⟩
  · exact step_returned hstep (hs.dtor y t a h)
  · cases action with
    | destroy u =>
        obtain ⟨rfl, -⟩ : t = u ∧ a = .own (.unbound u) := by simpa [Action.calls] using h
        exact step_returned hstep (hok t (by rw [hl]; rfl))
    | _ => simp [Action.calls] at h

/-- Finished is stored at the end of `_run_wrapper`, or by an OS thread. -/
theorem Returned.finished_step (hs : Returned s) (hg : Good W s) (hstep : step bg s l = some s')
    {t : T} (h : (s'.task (.unbound t)).state = .finished) : s'.returned t = true := by
  obtain ⟨tok, L, hinv⟩ := hg
  rcases step_state hstep (.unbound t) with hst | hst | ⟨-, -, -, hrunning⟩
  · exact step_returned hstep (hs.finished t (hst.symm.trans h))
  · rw [h] at hst
    have hloc := hinv.threads.locals (s.exec l.1)
    have hfin := hs.finish t
    -- of the points that store a state, only these two store Finished
    cases hpc : s.pc (s.exec l.1) with
    | insert a me pc =>
        rw [hpc] at hst
        cases pc <;> cases hst
    | finishState me =>
        rw [hpc] at hst hloc
        injection hst with hst
        have hme : s.exec l.1 = .unbound t := hloc.1.symm.trans (congrArg Prod.fst hst)
        rw [← hme, hpc] at hfin
        exact step_returned hstep (hfin (.head _))
    | exitState me =>
        rw [hpc] at hst hloc
        injection hst with hst
        have hme : s.exec l.1 = .unbound t := hloc.1.symm.trans (congrArg Prod.fst hst)
        rw [hme] at hloc
        cases hloc.2
    | _ =>
        rw [hpc] at hst
        cases hst
  · rw [hrunning] at h
    cases h

/-- `m_awaitable` is released at the end of `_run_wrapper` or in `~Task`. -/
theorem Returned.awaitable_step (hs : Returned s) (hg : Good W s) (hstep : step bg s l = some s')
    {t : T} (h : (s'.aw (.own (.unbound t))).isFinished = true) : s'.returned t = true := by
  obtain ⟨tok, L, hinv⟩ := hg
  apply step_returned hstep
  rcases step_isFinished hstep h with h | ⟨rel, h⟩
  · exact hs.awaitable t h
  · obtain ⟨hof, hsub⟩ := Pc.around_release (hinv.threads.locals _) h
    have hrel := hs.releases _ _ _ h
    -- the callers of `release`
    cases rel with
    | user =>
        obtain ⟨b, hb⟩ := hrel
        cases hb
    | dtor u =>
        cases hrel
        exact hs.dtor _ t _ h
    | finish current =>
        cases hrel
        have hfin := hs.finish t
        rw [hof.1] at hfin
        exact hfin (hsub _ (.head _))
    | exit this =>
        cases hrel
        rw [← hof.1] at hof
        cases hof.2

/-- **A step keeps what shows that a function has returned.** -/
theorem returned_step (hs : Returned s) (hg : Good W s) (hok : DestroysReturned s l)
    (hstep : step bg s l = some s') : Returned s' where
  releases := releases_step hs.releases hstep
  finish := fun _ h => hs.finish_step hstep h
  dtor := fun _ _ _ h => hs.dtor_step hok hstep h
  finished := fun _ h => hs.finished_step hg hstep h
  awaitable := fun _ h => hs.awaitable_step hg hstep h
  joinRet := by
    intro y t hy
    apply step_returned hstep
    rcases step_guarded hstep rfl hy with hy | hseen
    · exact hs.joinRet y t hy
    · exact hs.finished t hseen

/-! ## §3. Joiners. -/

/-- A task in the list of `m_awaitable` is made Running, and a `join` that does
not insert returns, only after the function of the joined task. -/
structure JoinsAfterReturn (s : State Θ T A) : Prop where
  woken : ∀ y rel a z delayed t, s.pc y = .addState rel a z delayed →
    s.insertedIn z = some (.own (.unbound t)) → s.returned t = true
  notInserted : ∀ y t, s.pc y = .joinRet t ∨ s.pc y = .waitRet (.own (.unbound t)) false →
    s.returned t = true

omit [DecidableEq Θ] [DecidableEq T] [DecidableEq A] in
theorem Returned.joins (hs : Returned s) (hg : Good W s) : JoinsAfterReturn s := by
  obtain ⟨tok, L, hinv⟩ := hg
  refine ⟨?_, ?_⟩
  · intro y rel a z delayed t hpc hin
    -- the taken list is that of the Awaitable the task was inserted in
    have hz := hinv.waking_listed (y := y) (z := z) (by rw [hpc]; rfl)
    have hreleasing := hinv.lists.insertedTaken y z hz
    rw [hin, hpc] at hreleasing
    injection hreleasing with ha
    subst ha
    exact hs.awaitable t (hinv.lists.sawFinished y _ (by rw [hpc]; rfl))
  · rintro y t (hpc | hpc)
    · exact hs.joinRet y t hpc
    · exact hs.awaitable t (hinv.lists.sawFinished y _ (by rw [hpc]; rfl))

/-- A clean step that does not enter a destructor too early. -/
structure CleanDestroy (s : State Θ T A) (l : Label Θ T A) : Prop where
  clean : Clean s l
  destroys : DestroysReturned s l

instance [Fintype Θ] [Fintype T] (s : State Θ T A) (l : Label Θ T A) :
    Decidable (CleanDestroy s l) :=
  decidable_of_iff (Clean s l ∧ ∀ t ∈ l.2.destroys, s.returned t = true)
    ⟨fun h => ⟨h.1, h.2⟩, fun h => ⟨h.1, h.2⟩⟩

/-- **Joiners go on only after the function of the task.** -/
theorem joins_after_return (h : (machine T A bg).Reach CleanDestroy s) : JoinsAfterReturn s := by
  have hboth : Good IsUnbound s ∧ Returned s := by
    refine h.invariant (I := fun s => Good IsUnbound s ∧ Returned s) ?_ ?_
    · rintro s rfl
      exact ⟨inv_init, returned_init⟩
    · rintro s l u ⟨hg, hs⟩ hok hstep
      exact ⟨inv_step (fun _ => rfl) hg hok.clean.orderly hstep,
        returned_step hs hg hok.destroys hstep⟩
  exact hboth.2.joins hboth.1

/-- A second thread joins the task, which then runs to its end and is about to
make the joiner Running. -/
def joinedToTheEnd : List (Label OsThread Unit Unit) :=
  (main, .act (.create ())) :: goes main 4 ++ (main, .act .yield) :: goes main 7 ++
    (second, .act (.join ())) :: goes second 5 ++ (main, .act .yield) :: (main, .pick (some ())) ::
    goes main 4 ++ (main, .act .finish) :: goes main 2

theorem joins_after_return_joinedToTheEnd : ∃ s : State OsThread Unit Unit,
    s.pc (.unbound ()) =
      .addState (.finish (.unbound ())) (.own (.unbound ())) (.native second) none ∧
      JoinsAfterReturn s := by
  obtain ⟨s, hs, hp⟩ := Machine.exists_reach_of_replayOk
    (machine Unit Unit fun _ : OsThread => false) CleanDestroy joinedToTheEnd
    (fun s => s.pc (.unbound ()) ==
      .addState (.finish (.unbound ())) (.own (.unbound ())) (.native second) none) rfl
    (by decide +kernel)
  exact ⟨s, by simpa using hp, joins_after_return hs⟩

/-- A second thread joins the task, and the first one destroys it. -/
def destroyedWhileJoined : List (Label OsThread Unit Unit) :=
  (main, .act (.create ())) :: goes main 4 ++ (main, .act .yield) :: goes main 7 ++
    (second, .act (.join ())) :: goes second 5 ++ (main, .act (.destroy ())) :: goes main 2

/-- **The joiner is let go before the function has returned.** -/
theorem joiner_woken_early : ∃ s : State OsThread Unit Unit,
    (machine Unit Unit fun _ => false).Reachable s ∧ ¬ JoinsAfterReturn s := by
  obtain ⟨s, hs, hp⟩ := Machine.exists_reach_of_replay
    (machine Unit Unit fun _ : OsThread => false) destroyedWhileJoined
    (fun s => s.pc (.native main) ==
        .addState (.dtor ()) (.own (.unbound ())) (.native second) none &&
      s.insertedIn (.native second) == some (.own (.unbound ())) && !s.returned ()) rfl
    (by decide +kernel)
  simp only [Bool.and_eq_true, beq_iff_eq, Bool.not_eq_true'] at hp
  refine ⟨s, hs, fun h => ?_⟩
  have := h.woken _ _ _ _ _ _ hp.1.1 hp.1.2
  rw [hp.2] at this
  cases this

end Scheduler

end Alterstack
