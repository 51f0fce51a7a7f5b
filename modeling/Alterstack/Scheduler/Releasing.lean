/-
  Alterstack.Scheduler.Releasing — `insert_current_task_in_waitlist`, `release`
  and `add_waiting_list_to_running` keep the invariant.

  Main results:
    * `inv_insertionStep` — a task enters the wait list of an Awaitable;
    * `inv_releasingStep` — the list passes to the releasing stack;
    * `inv_addStateStep`, `inv_addContextStep` — its tasks become Running, one
      at a time, and none of them is delayed.
-/
import Alterstack.Scheduler.Switching

namespace Alterstack

namespace Scheduler

open Lib (Seg Layout Machine)
open Awaitable (InsertPc InsertNext insertStep ReleasePc ReleaseNext releaseStep)

variable {Θ T A : Type*}

variable [DecidableEq Θ] [DecidableEq T] {W : TaskId Θ T → Prop} {s : State Θ T A}
  {tok : T → Tok Θ T} {L : Layout (Place Θ T A) (TaskId Θ T)} {θ : Θ} {x y z : TaskId Θ T}
  {p p' : Pc Θ T A} {spurious : Bool} [DecidableEq A]

/-! ## §1. `insert_current_task_in_waitlist`. -/

theorem setAw_self (s : State Θ T A) (a : AwId Θ T A) : s.setAw a (s.aw a) = s := by
  simp [State.setAw]

theorem setTask_setAw_self (s : State Θ T A) (a : AwId Θ T A)
    (d : AwaitableData (TaskId Θ T)) (x : TaskId Θ T) :
    (s.setAw a d).setTask x (s.task x) = s.setAw a d := by
  simp [State.setTask, State.setAw]

theorem inv_insertionStep (h : Inv W s tok L) (hx : s.exec θ = x) {a : AwId Θ T A}
    {me : TaskId Θ T} {pc : InsertPc (TaskId Θ T)} (hpc : s.pc x = .insert a me pc)
    (hok : Orderly W s (θ, .go spurious)) {bg : Θ → Bool} :
    Good W (insertionStep bg s θ x spurious a me pc) := by
  have hloc := h.threads.locals x
  rw [hpc] at hloc
  obtain rfl : me = x := hloc
  have hins := h.lists.inserting me
  rw [hpc] at hins
  have hnf := h.not_finished hpc rfl
  have hf := h.tokens.fcontext me
  have hsaw : ∀ (b : AwId Θ T A), (s.aw b).isFinished = true →
      ∀ c, some b = some c → (s.aw c).isFinished = true := by
    intro b hb c hc
    injection hc with hc
    exact hc ▸ hb
  cases pc with
  | load =>
      have hrunning : W me → (s.task me).state = .running := fun hW =>
        h.awake.awake me hW (by rw [hpc]; rfl)
      simp only [insertionStep, insertStep]
      by_cases hfin : (s.aw a).isFinished = true
      · rw [if_pos hfin]
        dsimp only
        rw [setTask_setAw_self, setAw_self]
        exact ⟨tok, L, h.setPc hx hpc trivial rfl nofun (.inl rfl) rfl rfl rfl (.inl rfl) trivial
          (hsaw a hfin) nofun
          (h.awake.setPc (fun hW _ => hrunning hW) nofun (fun c _ => hsaw a hfin c) nofun)⟩
      · rw [if_neg hfin]
        dsimp only
        rw [setTask_setAw_self, setAw_self]
        exact ⟨tok, L, h.setPc hx hpc rfl rfl nofun (.inl rfl) rfl rfl rfl (.inl rfl)
          (show (s.aw a).isFinished = false by simpa using hfin) nofun nofun
          (h.awake.setPc (fun hW _ => hrunning hW) nofun nofun nofun)⟩
  | setState aw =>
      have hrunning : (s.task me).state = .running := by
        by_cases hW : W me
        · exact h.awake.awake me hW (by rw [hpc]; rfl)
        · exact hok.pauses me (by rw [hx, hpc]; rfl) hW
      have hun : Unlisted L me := h.lists.unlisted (by simp [hrunning]) (by rw [hpc]; nofun)
      simp only [insertionStep, insertStep, setAw_self]
      exact ⟨tok, L, h.own hx hpc rfl rfl rfl (.inl rfl) rfl rfl (.inl rfl) hf
        ⟨nofun, nofun⟩ (.inl rfl) (fun q hq => absurd hq (hun q)) ⟨rfl, hun, hins⟩ nofun
        nofun rfl nofun⟩
  | setContext aw =>
      obtain ⟨hw, hun, hfin⟩ := hins
      simp only [insertionStep, insertStep, setAw_self]
      exact ⟨tok, L, h.own hx hpc rfl rfl rfl (.inl rfl) rfl rfl (.inl rfl) nofun
        ⟨fun hs => absurd hs hnf, nofun⟩ (.inr hun) (fun q hq => absurd hq (hun q))
        ⟨hw, hun, rfl, hfin⟩ nofun nofun rfl nofun⟩
  | cas aw =>
      obtain ⟨hw, hun, hnext, hfin⟩ := hins
      simp only [insertionStep, insertStep]
      by_cases hcas : s.aw a = aw ∧ spurious = false
      · -- the task is now listed; its token stays with the thread
        rw [if_pos hcas]
        dsimp only
        rw [setTask_setAw_self]
        have hcur : s.cur θ = me := (h.threads.cur_eq θ).trans hx
        have honx : (s.pc me).off = false := hx ▸ h.threads.on θ
        have hplain : (Pc.schedule (.wait a) me (nextTaskPc bg θ me)).Plain :=
          plain_schedule_start
        have hfin' : (s.aw a).isFinished = false := by rw [hcas.1]; exact hfin
        simp only [schedule, State.setAw, hcur]
        refine ⟨tok, L.receive (.aw a) me hun,
          h.threads.setPc hx ⟨rfl, trivial, nextTaskPc_onlyUnbound⟩ rfl, ?_, ?_,
          h.awake.insert hw rfl rfl rfl hplain.ready hfin', fun t ht => h.life_setPc hx t ht⟩
        · refine h.tokens.quiet hx honx rfl ?_ ?_ (by rw [hpc]; rfl) (by rw [hpc]; rfl)
          · rw [hplain.ready]
            nofun
          · rw [hplain.leaving]
            nofun
        · exact h.lists.insert hun hw (by rw [hcas.1]; exact hnext) (by rw [hpc]; rfl)
            hplain.list hplain.sawFinished (hplain.inserting _ _ _) hfin'
      · rw [if_neg hcas]
        by_cases hfin' : (s.aw a).isFinished = true
        · rw [if_pos hfin']
          dsimp only
          rw [setTask_setAw_self, setAw_self]
          exact ⟨tok, L, h.setPc hx hpc rfl rfl nofun (.inl rfl) rfl rfl rfl (.inl rfl) hun
            (hsaw a hfin') nofun (h.awake.setPc nofun nofun nofun nofun)⟩
        · rw [if_neg hfin']
          dsimp only
          rw [setAw_self]
          exact ⟨tok, L, h.own hx hpc rfl rfl rfl (.inl rfl) rfl rfl (.inl rfl) hf
            ⟨fun hs => absurd hs hnf, nofun⟩ (.inr hun) (fun q hq => absurd hq (hun q))
            ⟨hw, hun, rfl, by simpa using hfin'⟩ nofun nofun rfl nofun⟩
  | undoState =>
      have hun : Unlisted L me := hins
      have hfin := h.lists.sawFinished me a (by rw [hpc]; rfl)
      simp only [insertionStep, insertStep, setAw_self]
      exact ⟨tok, L, h.own hx hpc rfl rfl rfl (.inl rfl) rfl rfl (.inl rfl) hf
        ⟨nofun, nofun⟩ (.inl rfl) (fun q hq => absurd hq (hun q)) trivial (hsaw a hfin)
        (fun _ _ => rfl) rfl nofun⟩
  | undoContext =>
      have hfin := h.lists.sawFinished me a (by rw [hpc]; rfl)
      simp only [insertionStep, insertStep, setAw_self]
      exact ⟨tok, L, h.own hx hpc trivial rfl rfl (.inl rfl) rfl rfl (.inl rfl) nofun
        ⟨fun hs => absurd hs hnf, nofun⟩ (.inl rfl)
        (fun q hq => .inl (h.waiting_of_listed hpc nofun hq)) trivial (hsaw a hfin)
        (fun hW _ => h.awake.awake me hW (by rw [hpc]; rfl)) rfl (fun c _ => hsaw a hfin c)⟩

/-! ## §2. `release` and `add_waiting_list_to_running`. -/

omit [DecidableEq Θ] [DecidableEq T] [DecidableEq A] in
/-- The head of the first loop, with nobody delayed. -/
def nextPc (ret : ReleaseRet Θ T) (a : AwId Θ T A) : Option (TaskId Θ T) → Pc Θ T A
  | some task => .addState ret a task none
  | none => releaseReturn ret

omit [DecidableEq A] in
theorem nextWaiting_none (s : State Θ T A) (x : TaskId Θ T) (ret : ReleaseRet Θ T)
    (a : AwId Θ T A) (taskList : Option (TaskId Θ T)) :
    nextWaiting s x ret a none taskList = s.setPc x (nextPc ret a taskList) := by
  cases taskList <;> rfl

omit [DecidableEq Θ] [DecidableEq T] [DecidableEq A] in
theorem releaseReturn_spec {ret : ReleaseRet Θ T} (hret : ret.Of x) :
    (releaseReturn ret : Pc Θ T A).isCode = true ∧ (releaseReturn ret : Pc Θ T A).Local x := by
  cases ret with
  | user | dtor t => exact ⟨rfl, trivial⟩
  | finish me | exit me => exact ⟨rfl, hret⟩

/-- What `nextPc` says: the list is what it was given, the rest is plain. -/
structure NextPc (x : TaskId Θ T) (a : AwId Θ T A) (taskList : Option (TaskId Θ T))
    (p : Pc Θ T A) : Prop where
  loc : p.Local x
  on : p.off = false
  ready : p.ready = none
  leaving : p.leaving = none
  unsaved : p.unsaved = none
  ended : p.ended = false
  list : p.list = taskList
  releasing : p.releasing = some a ∨ p.list = none
  sawFinished : ∀ b, p.sawFinished = some b → b = a
  inserting : ∀ L x f, p.Inserting L x f
  asleep : p.asleep = none
  woken : p.woken = none

omit [DecidableEq Θ] [DecidableEq T] [DecidableEq A] in
theorem nextPc_spec {ret : ReleaseRet Θ T} (hret : ret.Of x) (a : AwId Θ T A)
    (taskList : Option (TaskId Θ T)) : NextPc x a taskList (nextPc ret a taskList) := by
  cases taskList with
  | some task =>
      refine ⟨⟨hret, rfl⟩, rfl, rfl, rfl, rfl, rfl, rfl, .inl rfl, fun b hb => ?_,
        fun _ _ _ => trivial, rfl, rfl⟩
      injection hb with hb
      exact hb.symm
  | none =>
      obtain ⟨hcode, hl⟩ := releaseReturn_spec (A := A) hret
      obtain ⟨hp, he, hs, hw⟩ := Pc.plain_of_isCode hcode
      exact ⟨hl, hp.on, hp.ready, hp.leaving, hp.unsaved, he, hp.list, .inr hp.list,
        (fun b hb => by rw [nextPc, hp.sawFinished] at hb; cases hb), hp.inserting, hs, hw⟩

omit [DecidableEq Θ] [DecidableEq T] [DecidableEq A] in
/-- It is running code. -/
theorem NextPc.follows {a : AwId Θ T A} {taskList : Option (TaskId Θ T)}
    (hn : NextPc x a taskList p') (ha : p.awake = true) : p.Follows p' := by
  refine ⟨fun _ => ha, ?_, ?_, ?_⟩
  · rw [hn.asleep]
    nofun
  · rw [hn.woken]
    nofun
  · rw [hn.ready]
    nofun

omit [DecidableEq A] in
/-- The loop goes on with the same list. -/
theorem Inv.next (h : Inv W s tok L) (hx : s.exec θ = x) (hpc : s.pc x = p)
    {ret : ReleaseRet Θ T} (hret : ret.Of x) {a : AwId Θ T A} {taskList : Option (TaskId Θ T)}
    (hu : p.unsaved = none) (hend : p.ended = false) (hlist : p.list = taskList)
    (hrel : p.releasing = some a) (hsaw : p.sawFinished = some a) (hexit : p ≠ .exited)
    (ha : p.awake = true) : Inv W (s.setPc x (nextPc ret a taskList)) tok L := by
  have hn := nextPc_spec hret a taskList
  refine h.setPc hx hpc hn.loc hn.on (by rw [hn.ready]; nofun) (.inl hn.leaving)
    (hn.unsaved.trans hu.symm) (hn.ended.trans hend.symm) (hn.list.trans hlist.symm) ?_
    (hn.inserting _ _ _) ?_ hexit (h.awake.quiet (hpc ▸ hn.follows ha))
  · exact hn.releasing.imp_left (fun hr => hr.trans hrel.symm)
  · intro b hb
    rw [hn.sawFinished b hb]
    exact h.lists.sawFinished x a (by rw [hpc, hsaw])

theorem inv_releasingStep (h : Inv W s tok L) (hx : s.exec θ = x) {ret : ReleaseRet Θ T}
    {a : AwId Θ T A} {pc : ReleasePc (TaskId Θ T)} (hpc : s.pc x = .release ret a pc) :
    Good W (releasingStep s x spurious ret a pc) := by
  have hret := h.threads.locals x
  rw [hpc] at hret
  obtain ⟨hcode, hl⟩ := releaseReturn_spec (A := A) hret
  have hleave : Good W (s.setPc x (releaseReturn ret)) :=
    ⟨tok, L, h.code hx hpc hl hcode rfl rfl rfl rfl⟩
  have hstay : ∀ aw, Good W (s.setPc x (.release ret a (.cas aw))) := fun aw =>
    ⟨tok, L, h.code hx hpc hret rfl rfl rfl rfl rfl⟩
  cases pc with
  | load =>
      simp only [releasingStep, releaseStep]
      by_cases hfin : (s.aw a).isFinished = true
      · rw [if_pos hfin]
        dsimp only
        rwa [setAw_self]
      · rw [if_neg hfin]
        dsimp only
        rw [setAw_self]
        exact hstay _
  | cas aw =>
      simp only [releasingStep, releaseStep]
      by_cases hcas : s.aw a = aw ∧ spurious = false
      · -- the list passes to the stack
        rw [if_pos hcas]
        obtain ⟨rfl, -⟩ := hcas
        dsimp only
        rw [nextWaiting_none]
        have hn := nextPc_spec hret a (s.aw a).head
        have honx : (s.pc x).off = false := hx ▸ h.threads.on θ
        have hempty : L.at_ (.taken x) = [] := by
          have := h.lists.taken x
          rw [hpc] at this
          exact this.eq_nil.1
        refine ⟨tok, WaitLists.takeList L a x hempty, h.threads.setPc hx hn.loc hn.on, ?_, ?_,
          (h.awake.quiet (hpc ▸ hn.follows rfl)).finish (fun b hb => ?_),
          fun t ht => h.life_setPc hx t ht⟩
        · exact h.tokens.quiet hx honx hn.on (by rw [hn.ready]; nofun) (by rw [hn.leaving]; nofun)
            (by rw [hn.unsaved, hpc]; rfl) (by rw [hn.ended, hpc]; rfl)
        · exact h.lists.take (by rw [hpc]; nofun) hempty hn.list hn.releasing
            (hn.inserting _ _ _) hn.sawFinished
        · by_cases hb' : b = a
          · simp [State.setPc, State.setAw, hb']
          · simpa [State.setPc, State.setAw, hb'] using hb
      · rw [if_neg hcas]
        by_cases hfin : (s.aw a).isFinished = true
        · rw [if_pos hfin]
          dsimp only
          rwa [setAw_self]
        · rw [if_neg hfin]
          dsimp only
          rw [setAw_self]
          exact hstay _

/-- The first task of the taken list becomes Running. -/
theorem inv_addStateStep (h : Inv W s tok L) (hx : s.exec θ = x) {ret : ReleaseRet Θ T}
    {a : AwId Θ T A} {delayed : Option (TaskId Θ T)} (hpc : s.pc x = .addState ret a z delayed)
    (hwake : z.isThreadBound = false → SwitchedOut s z) :
    Good W (addStateStep s x ret a z delayed) := by
  have hloc := h.threads.locals x
  rw [hpc] at hloc
  obtain ⟨hret, rfl⟩ := hloc
  have honx : (s.pc x).off = false := hx ▸ h.threads.on θ
  have hz : z ∈ L.at_ (.taken x) := by
    obtain ⟨rest, hrest, -⟩ := Seg.eq_cons (show Seg _ (some z) (L.at_ (.taken x)) none by
      have := h.lists.taken x
      rwa [hpc] at this)
    simp [hrest]
  -- the Awaitable it waited on is the one that is being released
  have hfin : ∀ b, s.insertedIn z = some b → (s.aw b).isFinished = true := by
    intro b hb
    rw [h.lists.insertedTaken x z hz] at hb
    refine h.lists.sawFinished x b ?_
    rw [hpc] at hb ⊢
    exact hb
  unfold addStateStep
  cases z with
  | native θ' =>
      obtain ⟨L', hlists⟩ := h.lists.unlink (p := .addNotify ret a (s.link (.native θ')) none _)
        (by rw [hpc]; nofun) (by rw [hpc]; rfl) (by rw [hpc]; rfl) rfl rfl
        (fun _ _ => trivial) (by rw [hpc]; rfl)
      refine ⟨tok, L', h.threads.setPc hx ⟨hret, rfl⟩ rfl, ?_, hlists,
        (h.awake.wake hfin none).quiet (hpc ▸ ⟨fun _ => rfl, nofun, nofun, nofun⟩),
        fun t ht => h.life_setPc hx t ht⟩
      exact (h.tokens.setRunning (fun t ht => by cases ht) none).quiet hx honx rfl nofun nofun
        (by rw [hpc]; rfl) (by rw [hpc]; rfl)
  | unbound t =>
      obtain ⟨hexec, hleaving⟩ := hwake rfl
      have hoff := h.threads.off _ hexec
      -- listed and not ended, so Waiting: nobody else has a claim on it
      have hwaiting : (s.task (.unbound t)).state = .waiting := by
        refine (h.lists.listed _ _ hz).resolve_right (fun he => ?_)
        rw [he.1] at hoff
        cases hoff
      have hnotready : ∀ y, (s.pc y).ready ≠ some (.unbound t) := by
        intro y hy
        have := (h.tokens.only_of_ready hy).2.2.2.2
        rw [hwaiting] at this
        cases this
      have hborn : s.pc (.unbound t) ≠ .unborn := by
        intro hu
        have := (h.tokens.unborn t hu).1
        rw [hwaiting] at this
        cases this
      have hqueued : s.queued t = 0 := by
        by_contra hq
        have := (h.tokens.only_of_queued (Nat.pos_of_ne_zero hq)).2.2.2
        rw [hwaiting] at this
        cases this
      have hend : (s.pc (.unbound t)).ended = false := by
        by_contra hend
        have := h.tokens.ended t (by simpa using hend)
        rw [hwaiting] at this
        cases this
      obtain ⟨L', hlists⟩ := h.lists.unlink (p := .addContext ret a (s.link (.unbound t)) none _)
        (by rw [hpc]; nofun) (by rw [hpc]; rfl) (by rw [hpc]; rfl) rfl rfl
        (fun _ _ => trivial) (by rw [hpc]; rfl)
      have htokens := (h.tokens.setRunning (z := .unbound t) (fun _ _ => hend) none).give
        (x := x) (p := .addContext ret a (s.link (.unbound t)) none (.unbound t)) (q := 0)
        (k := .ready x) honx rfl (by rw [hpc]; rfl) (by rw [hpc]; rfl)
        (fun y _ => ⟨hnotready y, hleaving y⟩) hexec hborn
        (fun w hw => by injection hw with hw; exact ⟨hw.symm, rfl⟩) rfl (by omega) (by omega)
        (by simp)
      rw [← hqueued, Function.update_eq_self] at htokens
      exact ⟨_, L', h.threads.setPc hx ⟨hret, rfl, rfl⟩ rfl, htokens, hlists,
        (h.awake.wake hfin none).quiet (hpc ▸ ⟨fun _ => rfl, nofun, nofun, nofun⟩),
        fun t ht => h.life_setPc hx t ht⟩

omit [DecidableEq Θ] [DecidableEq T] [DecidableEq A] in
theorem Pc.leaving_of_unsaved (h : p.unsaved = some z) : p.leaving = some z := by
  cases p with
  | postJump ret me prev fctx pc => cases pc <;> first | exact h | cases h
  | _ => cases h

omit [DecidableEq Θ] [DecidableEq T] [DecidableEq A] in
/-- The continuation of a task that is about to be enqueued is saved. -/
theorem Inv.context_of_ready (h : Inv W s tok L) {t : T} (hr : (s.pc x).ready = some (.unbound t)) :
    (s.task (.unbound t)).context = .fcontext (.unbound t) := by
  obtain ⟨hothers, hexec, -, hborn, -⟩ := h.tokens.only_of_ready hr
  rcases h.tokens.saved _ (h.threads.off _ hexec) hborn with hc | ⟨y, hy⟩
  · exact hc
  · have hl := Pc.leaving_of_unsaved hy
    have := h.tokens.leaving y t hl
    rw [h.tokens.ready x t hr] at this
    cases this

omit [DecidableEq A] in
theorem inv_addContextStep (h : Inv W s tok L) (hx : s.exec θ = x) {ret : ReleaseRet Θ T}
    {a : AwId Θ T A} {taskList delayed : Option (TaskId Θ T)}
    (hpc : s.pc x = .addContext ret a taskList delayed z) :
    Good W (addContextStep s x ret a taskList delayed z) := by
  have hloc := h.threads.locals x
  rw [hpc] at hloc
  obtain ⟨hret, rfl, hz⟩ := hloc
  cases z with
  | native θ' => cases hz
  | unbound t =>
      have hctx := h.context_of_ready (x := x) (t := t) (by rw [hpc]; rfl)
      unfold addContextStep
      rw [if_neg (by rw [hctx]; nofun)]
      refine ⟨tok, L, h.setPc hx hpc ⟨hret, rfl, rfl⟩ rfl (fun w hw => .inl hw) (.inl rfl) rfl rfl
        rfl (.inl rfl) trivial (fun b hb => ?_) nofun
        (h.awake.quiet (hpc ▸ ⟨fun _ => rfl, nofun, nofun, nofun⟩))⟩
      exact h.lists.sawFinished x b (by rw [hpc]; exact hb)

end Scheduler

end Alterstack
