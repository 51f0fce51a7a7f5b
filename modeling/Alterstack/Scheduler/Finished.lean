/-
  Alterstack.Scheduler.Finished — the end of a `Task`.

  `_run_wrapper` stores Finished and calls `schedule` for the last time; the
  loop of `~Task` takes a Finished task with a context for one that nobody
  executes.  A releaser that has delayed the task earlier enqueues it even so,
  and the constant that a failing insertion leaves in `m_context` ends the loop
  while the task still runs.

  Main results:
    * `enqueued_finished` — a run that resumes a Finished task;
    * `finished_rests` — in clean runs a Finished task is never enqueued or
      switched to, and the code after the last `schedule` is never executed;
    * `freed_running` — a run that ends the loop of `~Task` too early;
    * `not_executed_of_detached` — without such a constant it ends in time.
-/
import Alterstack.Scheduler.Frames
import Alterstack.Scheduler.Exclusive

namespace Alterstack

namespace Scheduler

open Lib (Machine Layout)
open OsThread

variable {Θ T A : Type*} [DecidableEq Θ] [DecidableEq T] [DecidableEq A]
  {W : TaskId Θ T → Prop} {s s' : State Θ T A} {tok : T → Tok Θ T}
  {L : Layout (Place Θ T A) (TaskId Θ T)} {bg : Θ → Bool} {l : Label Θ T A} {x y z : TaskId Θ T}

/-! ## §1. A Finished task stays so. -/

omit [DecidableEq Θ] [DecidableEq T] [DecidableEq A] in
/-- The task that a releaser makes Running is in the list it has taken. -/
theorem Inv.waking_listed (h : Inv W s tok L) (hw : (s.pc y).waking = some z) :
    z ∈ L.at_ (.taken y) := by
  have hlist : (s.pc y).list = some z := by
    cases hpc : s.pc y with
    | addState ret a task delayed =>
        rw [hpc] at hw
        exact hw
    | _ =>
        rw [hpc] at hw
        cases hw
  obtain ⟨rest, hrest, -⟩ := Lib.Seg.eq_cons (hlist ▸ h.lists.taken y)
  simp [hrest]

omit [DecidableEq Θ] [DecidableEq T] [DecidableEq A] in
/-- So it is Waiting: a native task that has exited is not a `Task`. -/
theorem Inv.waking_waiting (h : Inv W s tok L) (hw : (s.pc y).waking = some z)
    (hz : z.isThreadBound = false ∨ W z) : (s.task z).state = .waiting := by
  rcases h.lists.listed _ z (h.waking_listed hw) with hs | ⟨he, hW⟩
  · exact hs
  · rcases hz with hz | hz
    · have hloc := h.threads.locals z
      rw [he] at hloc
      exact absurd hz (by simpa [Pc.Local] using hloc)
    · exact absurd hz hW

/-- **Nobody stores another state over Finished.** -/
theorem finished_step (h : Good W s) (hstep : step bg s l = some s')
    (hz : z.isThreadBound = false ∨ W z) (hf : (s.task z).state = .finished) :
    (s'.task z).state = .finished := by
  obtain ⟨tok, L, h⟩ := h
  have hended := h.tokens.finished z hf
  rcases step_state hstep z with hs | hs | ⟨t, rfl, hlife, -⟩
  · rw [hs, hf]
  · have hloc := h.threads.locals (s.exec l.1)
    cases hpc : s.pc (s.exec l.1) with
    | insert a me pc =>
        -- a task inside `insert_current_task_in_waitlist` has not ended
        rw [hpc] at hs hloc
        obtain rfl : me = s.exec l.1 := hloc
        have hme : z = s.exec l.1 := by
          cases pc with
          | setState aw => injection hs with hs; exact (congrArg Prod.fst hs).symm
          | undoState => injection hs with hs; exact (congrArg Prod.fst hs).symm
          | _ => cases hs
        rw [hme, hpc] at hended
        cases hended
    | addState ret a task delayed =>
        rw [hpc] at hs
        injection hs with hs
        obtain rfl : task = z := congrArg Prod.fst hs
        have := h.waking_waiting (y := s.exec l.1) (by rw [hpc]; rfl) hz
        rw [hf] at this
        cases this
    | finishState me =>
        rw [hpc] at hs
        injection hs with hs
        exact (congrArg Prod.snd hs).symm
    | exitState me =>
        rw [hpc] at hs
        injection hs with hs
        exact (congrArg Prod.snd hs).symm
    | _ =>
        rw [hpc] at hs
        cases hs
  · have := (h.tokens.unborn t (h.life t hlife)).1
    rw [hf] at this
    cases this

omit [DecidableEq Θ] [DecidableEq T] [DecidableEq A] in
/-- A task that has ended is not about to be resumed. -/
theorem Inv.not_ready_of_ended (h : Inv W s tok L) {t : T}
    (he : (s.pc (.unbound t)).ended = true) (y : TaskId Θ T) :
    (s.pc y).ready ≠ some (.unbound t) := by
  intro hy
  have := (h.tokens.only_of_ready hy).2.2.2.2
  rw [h.tokens.ended t he] at this
  cases this

/-- **A suspended stack of a Finished task stays where it is.** -/
theorem ended_off_step (h : Good W s) (hstep : step bg s l = some s') {t : T}
    (he : (s.pc (.unbound t)).ended = true) (ho : (s.pc (.unbound t)).off = true) :
    s'.pc (.unbound t) = s.pc (.unbound t) := by
  obtain ⟨tok, L, h⟩ := h
  have hne : TaskId.unbound t ≠ s.exec l.1 := fun hx => h.threads.not_exec_of_off ho hx.symm
  cases step_pc hstep (.unbound t) with
  | same hs => exact hs
  | access hy _ => exact absurd hy hne
  | suspended hy _ _ _ _ => exact absurd hy hne
  | resumed new hready hctx _ _ _ _ _ =>
      obtain rfl := h.tokens.fcontext new _ hctx
      exact absurd hready (h.not_ready_of_ended he (s.exec l.1))
  | acts hy _ _ _ => exact absurd hy hne
  | constructed hlife _ =>
      rw [h.life t hlife] at he
      cases he

/-! ## §2. A Finished task rests. -/

/-- The task is neither stored, nor about to be enqueued or switched to. -/
structure Rests (s : State Θ T A) (t : T) : Prop where
  stored : s.queued t = 0
  enqueued : ∀ y, (s.pc y).enqueueing ≠ some (.unbound t)
  switched : ∀ y ret, s.pc y ≠ .switchTo ret (.unbound t)

omit [DecidableEq Θ] [DecidableEq T] [DecidableEq A] in
theorem Good.rests (h : Good W s) {t : T} (hf : (s.task (.unbound t)).state = .finished) :
    Rests s t := by
  obtain ⟨tok, L, h⟩ := h
  have hended := h.tokens.finished _ hf
  refine ⟨?_, fun y hy => ?_, fun y ret hy => ?_⟩
  · by_contra hq
    have := (h.tokens.only_of_queued (Nat.pos_of_ne_zero hq)).2.2.2
    rw [hf] at this
    cases this
  · exact h.not_ready_of_ended hended y (Pc.ready_of_enqueueing (h.threads.locals y) hy)
  · exact h.not_ready_of_ended hended y (by rw [hy]; rfl)

omit [DecidableEq Θ] [DecidableEq T] [DecidableEq A] in
/-- The last `schedule` of `_run_wrapper` does not return. -/
theorem Good.not_unreachable (h : Good W s) (x : TaskId Θ T) : s.pc x ≠ .unreachable := by
  intro hx
  obtain ⟨tok, L, h⟩ := h
  have hloc := h.threads.locals x
  rw [hx] at hloc
  exact hloc

/-- **A Finished task rests for ever in clean runs**, and nobody executes the
code after its last `schedule`. -/
theorem finished_rests (h : (machine T A bg).Reach Clean s) :
    (∀ x, s.pc x ≠ .unreachable) ∧
      ∀ t, (s.task (.unbound t)).state = .finished →
        ∀ s', (machine T A bg).Run Clean s s' → Rests s' t := by
  refine ⟨(good_of_clean h).not_unreachable, fun t hf s' hrun => ?_⟩
  have hgood : Good IsUnbound s' := good_of_clean (h.run hrun)
  suffices hf' : Good IsUnbound s' ∧ (s'.task (.unbound t)).state = .finished from
    hgood.rests hf'.2
  refine hrun.preserves (I := fun s => Good IsUnbound s ∧ (s.task (.unbound t)).state = .finished)
    ?_ ⟨good_of_clean h, hf⟩
  rintro s l u ⟨hs, hf⟩ hok hstep
  exact ⟨inv_step (fun _ => rfl) hs hok.orderly hstep, finished_step hs hstep (.inl rfl) hf⟩

/-- The task ends and its thread switches back. -/
def finishedAndLeft : List (Label OsThread Unit Unit) :=
  (main, .act (.create ())) :: goes main 4 ++ (main, .act .finish) :: goes main 9

/-- Both threads look into the queue, and the main thread goes through the loop
of `~Task`. -/
def goesOn : List (Label OsThread Unit Unit) :=
  (main, .act .yield) :: (second, .act .yield) :: (main, .pick none) :: (second, .pick none) ::
    goes main 1 ++ goes second 1 ++ (main, .act (.destroy ())) :: goes main 3

theorem finished_rests_finishedAndLeft :
    ∃ s s' : State OsThread Unit Unit, (machine Unit Unit fun _ => false).Reach Clean s ∧
      (s.task (.unbound ())).state = .finished ∧
      (machine Unit Unit fun _ => false).Run Clean s s' ∧ s'.pc (.native main) = .dtorFree () ∧
      Rests s' () := by
  obtain ⟨s, hs, hp⟩ := Machine.exists_reach_of_replayOk
    (machine Unit Unit fun _ : OsThread => false) Clean finishedAndLeft
    (fun s => (s.task (.unbound ())).state = .finished ∧
      ∃ s' ∈ (machine Unit Unit fun _ : OsThread => false).replayOk Clean s goesOn,
        s'.pc (.native main) = .dtorFree ()) rfl
    (by decide +kernel)
  obtain ⟨hf, s', hs', hpc⟩ := of_decide_eq_true hp
  have hrun := Machine.run_of_replayOk goesOn hs'
  exact ⟨s, s', hs, hf, hrun, hpc, (finished_rests hs).2 () hf s' hrun⟩

/-- The task runs on a BgThread and is released before its switch, so that it
goes on; the releaser still delays it.  It finishes, its context is saved, and
now the releaser enqueues it. -/
def delayedToTheEnd : List (Label OsThread Unit Unit) :=
  (main, .act (.create ())) :: goes main 4 ++ (main, .act .yield) :: goes main 7 ++
    (second, .act .yield) :: (second, .pick (some ())) :: goes second 4 ++
    (second, .act (.wait ())) :: goes second 4 ++ (main, .act (.release ())) :: goes main 4 ++
    (second, .pick none) :: goes second 3 ++ (second, .act .finish) :: goes second 3 ++
    (second, .pick none) :: goes second 5 ++ goes main 2 ++
    (second, .act .yield) :: (second, .pick (some ())) :: goes second 4

/-- **The code after the last `schedule` is executed.** -/
theorem enqueued_finished : ∃ s : State OsThread Unit Unit,
    (machine Unit Unit fun θ => θ == second).Reachable s ∧
      (s.task (.unbound ())).state = .finished ∧ s.exec second = .unbound () ∧
      s.pc (.unbound ()) = .unreachable := by
  obtain ⟨s, hs, hp⟩ := Machine.exists_reach_of_replay
    (machine Unit Unit fun θ : OsThread => θ == second) delayedToTheEnd
    (fun s => (s.task (.unbound ())).state == .finished && s.exec second == .unbound () &&
      s.pc (.unbound ()) == .unreachable) rfl (by decide +kernel)
  simp only [Bool.and_eq_true, beq_iff_eq] at hp
  exact ⟨s, hs, hp.1.1, hp.1.2, hp.2⟩

/-! ## §3. The loop of `~Task`. -/

/-- The task whose `_run_wrapper` is about to store Finished. -/
def Pc.finishing : Pc Θ T A → Option (TaskId Θ T)
  | .finishState current => some current
  | _ => none

/-- Finished is stored while no value is left in `m_context`. -/
def FinishesDetached (s : State Θ T A) (l : Label Θ T A) : Prop :=
  ∀ x ∈ (s.pc (s.exec l.1)).finishing, (s.task x).context = .null

/-- What the two reads of the loop of `~Task` have seen. -/
structure Settled (s : State Θ T A) : Prop where
  running : ∀ t, (s.pc (.unbound t)).ended = true → (s.pc (.unbound t)).off = false →
    (s.task (.unbound t)).context = .null
  finished : ∀ y t, s.pc y = .dtorContext t → (s.task (.unbound t)).state = .finished
  suspended : ∀ y t, s.pc y = .dtorFree t →
    (s.pc (.unbound t)).ended = true ∧ (s.pc (.unbound t)).off = true

omit [DecidableEq Θ] [DecidableEq T] [DecidableEq A] in
theorem settled_init : Settled (initial : State Θ T A) where
  running := nofun
  finished := by rintro (_ | _) t h <;> cases h
  suspended := by rintro (_ | _) t h <;> cases h

/-- The context of a task that has ended and still runs is not written. -/
theorem Inv.context_of_ended (h : Inv W s tok L) (hstep : step bg s l = some s') {t : T}
    (he : (s.pc (.unbound t)).ended = true) (ho : (s.pc (.unbound t)).off = false) :
    (s'.task (.unbound t)).context = (s.task (.unbound t)).context := by
  rcases step_context hstep (.unbound t) with hs | hs | ⟨u, hu, hlife⟩
  · exact hs
  · have hloc := h.threads.locals (s.exec l.1)
    cases hpc : s.pc (s.exec l.1) with
    | insert a me pc =>
        rw [hpc] at hs hloc
        obtain rfl : me = s.exec l.1 := hloc
        have hme : TaskId.unbound t = s.exec l.1 := by
          cases pc with
          | setContext aw => injection hs with hs; exact (congrArg Prod.fst hs).symm
          | undoContext => injection hs with hs; exact (congrArg Prod.fst hs).symm
          | _ => cases hs
        rw [hme, hpc] at he
        cases he
    | postJump ret me prev fctx pc =>
        rw [hpc] at hs hloc
        obtain ⟨rfl, -⟩ := hloc
        cases pc with
        | clearCurrent =>
            injection hs with hs
            have hme : TaskId.unbound t = s.exec l.1 := (congrArg Prod.fst hs).symm
            rw [hme, hpc] at he
            cases he
        | savePrev =>
            -- a task that is being switched out is not executed
            injection hs with hs
            obtain rfl : prev = .unbound t := congrArg Prod.fst hs
            have hleft := (h.tokens.only_of_leaving (x := s.exec l.1) (t := t)
              (by rw [hpc]; rfl)).2.1
            rw [h.threads.off _ hleft] at ho
            cases ho
        | _ => cases hs
    | _ =>
        rw [hpc] at hs
        cases hs
  · cases hu
    rw [h.life t hlife] at he
    cases he

/-- Where a running stack in its last `schedule` was before. -/
theorem Inv.ended_on_step (h : Inv W s tok L) (hstep : step bg s l = some s') {t : T}
    (he : (s'.pc (.unbound t)).ended = true) (ho : (s'.pc (.unbound t)).off = false) :
    ((s.pc (.unbound t)).ended = true ∧ (s.pc (.unbound t)).off = false) ∨
      (s.exec l.1 = .unbound t ∧ s.pc (.unbound t) = .finishState (.unbound t)) := by
  cases step_pc hstep (.unbound t) with
  | same hs =>
      rw [hs] at he ho
      exact .inl ⟨he, ho⟩
  | access hx hleads =>
      have hon := h.threads.on l.1
      rw [← hx] at hon
      rcases hleads.ended with hn | hsame | ⟨me, hme⟩
      · rw [hn] at he
        cases he
      · exact .inl ⟨hsame.symm.trans he, hon⟩
      · -- the only access that ends a stack is the store of Finished
        right
        have hloc := h.threads.locals (.unbound t)
        refine ⟨hx.symm, ?_⟩
        cases hpc : s.pc (.unbound t) with
        | finishState me' =>
            rw [hpc] at hloc
            rw [hloc.1]
        | exitState me' =>
            rw [hpc] at hloc
            cases hloc.2
        | insert a me' pc =>
            rw [hpc] at hme
            cases pc <;> cases hme
        | _ =>
            rw [hpc] at hme
            cases hme
  | suspended _ _ _ _ hs =>
      rw [hs] at ho
      cases ho
  | resumed _ _ _ _ _ _ hs _ =>
      rw [hs] at he
      cases he
  | acts _ _ _ hact =>
      rw [hact.ended] at he
      cases he
  | constructed _ hs =>
      rw [hs] at he
      cases he

theorem settled_step (h : Good W s) (hs : Settled s) (hok : FinishesDetached s l)
    (hstep : step bg s l = some s') : Settled s' := by
  have hgood := h
  obtain ⟨tok, L, h⟩ := h
  refine ⟨fun t he ho => ?_, fun y t hy => ?_, fun y t hy => ?_⟩
  · rcases h.ended_on_step hstep he ho with ⟨he, ho⟩ | ⟨hx, hpc⟩
    · rw [h.context_of_ended hstep he ho]
      exact hs.running t he ho
    · -- here Finished is stored, and the context is not written
      have hnull : (s.task (.unbound t)).context = .null :=
        hok _ (by rw [hx, hpc]; rfl)
      rcases step_context hstep (.unbound t) with hs | hs | ⟨u, hu, hlife⟩
      · rw [hs, hnull]
      · rw [hx, hpc] at hs
        cases hs
      · cases hu
        have := h.life t hlife
        rw [hpc] at this
        cases this
  · refine finished_step hgood hstep (.inl rfl) ?_
    rcases step_guarded hstep rfl hy with hy | hseen
    · exact hs.finished y t hy
    · exact hseen
  · have hoff : (s.pc (.unbound t)).ended = true ∧ (s.pc (.unbound t)).off = true := by
      rcases step_guarded hstep rfl hy with hy | ⟨hpc, hctx⟩
      · exact hs.suspended y t hy
      · -- the loop has read Finished, and now a context
        have he := h.tokens.finished _ (hs.finished y t hpc)
        refine ⟨he, ?_⟩
        by_contra ho
        exact hctx (hs.running t he (by simpa using ho))
    rw [ended_off_step hgood hstep hoff.1 hoff.2]
    exact hoff

/-- What the loop of `~Task` has seen holds in orderly runs that end tasks
without a context. -/
theorem settled_reach (hunbound : ∀ t, W (.unbound t)) {ok : State Θ T A → Label Θ T A → Prop}
    (hok : ∀ s l, ok s l → Orderly W s l ∧ FinishesDetached s l)
    (h : (machine T A bg).Reach ok s) : Good W s ∧ Settled s := by
  refine h.invariant (I := fun s => Good W s ∧ Settled s) ?_ ?_
  · rintro s rfl
    exact ⟨inv_init, settled_init⟩
  · rintro s l u ⟨hg, hs⟩ hokl hstep
    obtain ⟨hord, hend⟩ := hok s l hokl
    exact ⟨inv_step hunbound hg hord hstep, settled_step hg hs hend hstep⟩

/-- A clean step that does not store Finished over a context. -/
structure CleanEnd (s : State Θ T A) (l : Label Θ T A) : Prop where
  clean : Clean s l
  detached : FinishesDetached s l

instance [Fintype Θ] [Fintype T] (s : State Θ T A) (l : Label Θ T A) : Decidable (CleanEnd s l) :=
  decidable_of_iff (Clean s l ∧ ∀ x ∈ (s.pc (s.exec l.1)).finishing, (s.task x).context = .null)
    ⟨fun h => ⟨h.1, h.2⟩, fun h => ⟨h.1, h.2⟩⟩

/-- **The loop of `~Task` ends only after the last switch of the task.** -/
theorem not_executed_of_detached (h : (machine T A bg).Reach CleanEnd s) {t : T}
    (hpc : s.pc y = .dtorFree t) (θ : Θ) : s.exec θ ≠ .unbound t := by
  obtain ⟨⟨tok, L, hinv⟩, hs⟩ := settled_reach (W := IsUnbound) (fun _ => rfl)
    (fun _ _ hok => ⟨hok.clean.orderly, hok.detached⟩) h
  exact hinv.threads.not_exec_of_off (hs.suspended y t hpc).2

/-- The task has ended and its thread has switched back before it is destroyed. -/
def destroyedAfterSwitch : List (Label OsThread Unit Unit) :=
  finishedAndLeft ++ (main, .act (.destroy ())) :: goes main 3

theorem not_executed_destroyedAfterSwitch : ∃ s : State OsThread Unit Unit,
    s.pc (.native main) = .dtorFree () ∧ ∀ θ, s.exec θ ≠ .unbound () := by
  obtain ⟨s, hs, hp⟩ := Machine.exists_reach_of_replayOk
    (machine Unit Unit fun _ : OsThread => false) CleanEnd destroyedAfterSwitch
    (fun s => s.pc (.native main) == .dtorFree ()) rfl (by decide +kernel)
  have hpc : s.pc (.native main) = .dtorFree () := by simpa using hp
  exact ⟨s, hpc, not_executed_of_detached hs hpc⟩

/-- The insertion of the task fails because of a concurrent release and leaves
`0x01` in its context; it ends on the second thread, and the first one destroys
it before the second has switched. -/
def destroyedBeforeSwitch : List (Label OsThread Unit Unit) :=
  (main, .act (.create ())) :: goes main 4 ++ (main, .act .yield) :: goes main 7 ++
    (second, .act .yield) :: (second, .pick (some ())) :: goes second 4 ++
    (second, .act (.wait ())) :: goes second 3 ++ (main, .act (.release ())) :: goes main 2 ++
    goes second 4 ++ (second, .act .finish) :: goes second 3 ++
    (main, .act (.destroy ())) :: goes main 3

/-- **The loop ends while the task is executed.** -/
theorem freed_running : ∃ s : State OsThread Unit Unit,
    (machine Unit Unit fun _ => false).Reachable s ∧
      s.pc (.native main) = .dtorFree () ∧ s.exec second = .unbound () := by
  obtain ⟨s, hs, hp⟩ := Machine.exists_reach_of_replay
    (machine Unit Unit fun _ : OsThread => false) destroyedBeforeSwitch
    (fun s => s.pc (.native main) == .dtorFree () && s.exec second == .unbound ()) rfl
    (by decide +kernel)
  simp only [Bool.and_eq_true, beq_iff_eq] at hp
  exact ⟨s, hs, hp.1, hp.2⟩

end Scheduler

end Alterstack
