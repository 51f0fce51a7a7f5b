/-
  Alterstack.Scheduler.Frames — what a step of an OS thread can change.

  A step outside the program's code stays in the calls that are in progress on
  its stack or returns from some of them; it writes at most the one state or
  context that its control point names.  `step_cases` says this once for all
  control points; the other lemmas read single fields off it.

  Main results:
    * `step_cases` — an access, a switch, or an action of the program;
    * `step_pc` — the same for the point of one stack;
    * `step_calls`, `step_leaving`, `step_notifying`, `step_state`,
      `step_context`, `step_returned`, `step_isFinished` — single fields.
-/
import Alterstack.Scheduler.Accesses

namespace Alterstack

namespace Scheduler

variable {Θ T A : Type*} [DecidableEq Θ] [DecidableEq T]

variable {s s' : State Θ T A} {θ : Θ} {x y z : TaskId Θ T} {p p' : Pc Θ T A}
  {ret : SchedRet Θ T A} {rel : ReleaseRet Θ T} {a : AwId Θ T A}

variable [DecidableEq A]

/-! ## §1. The switch, and actions of the program. -/

/-- The stacks after a switch from `x`: the old one is suspended, the new one
resumed. -/
theorem switchStep_cases {newTask : TaskId Θ T} (h : switchStep s θ x ret newTask = some s') :
    ∃ y, (s.task newTask).context = .fcontext y ∧ s'.exec = Function.update s.exec θ y ∧
      s'.task = s.task ∧ s'.aw = s.aw ∧ s'.life = s.life ∧ s'.returned = s.returned ∧
      s'.pc = Function.update (Function.update s.pc x (.suspended ret (s.cur θ))) y
        (resumed newTask (s.cur θ) (.fcontext x) (s.pc y)) := by
  unfold switchStep at h
  split at h
  next y hc =>
    injection h with h
    subst h
    exact ⟨y, hc, rfl, rfl, rfl, rfl, rfl, rfl⟩
  next => cases h

/-- What a switch does to the points of the stacks. -/
theorem switchStep_pc {newTask : TaskId Θ T} (hpc : s.pc x = .switchTo ret newTask)
    (h : switchStep s θ x ret newTask = some s') (z : TaskId Θ T) :
    s'.pc z = s.pc z ∨ (z = x ∧ s'.pc z = .suspended ret (s.cur θ)) ∨
      ((s.pc z).off = true ∧ (s.task newTask).context = .fcontext z ∧
        ∃ ret' me, s'.pc z = .postJump ret' me (s.cur θ) (.fcontext x) .clearCurrent ∧
          ret'.calls ⊆ (s.pc z).calls) := by
  obtain ⟨y, hc, -, -, -, -, -, hpc'⟩ := switchStep_cases h
  rw [hpc']
  by_cases hzy : z = y
  · subst hzy
    rw [Function.update_self]
    cases hz : s.pc z with
    | suspended ret' me => exact .inr (.inr ⟨rfl, hc, ret', me, rfl, List.Subset.refl _⟩)
    | start => exact .inr (.inr ⟨rfl, hc, .start, newTask, rfl, List.nil_subset _⟩)
    | _ => exact .inl rfl
  · rw [Function.update_of_ne hzy]
    by_cases hzx : z = x
    · subst hzx
      rw [Function.update_self]
      exact .inr (.inl ⟨rfl, rfl⟩)
    · rw [Function.update_of_ne hzx]
      exact .inl rfl

/-- The calls that an action on the stack of `x` starts, `current` being the
local of its `_run_wrapper`. -/
def Action.calls (x current : TaskId Θ T) : Action T A → List (Call Θ T A)
  | .release a => [.release .user (.user a)]
  | .join t => [.join (.unbound t)]
  | .create t => [.ctor t]
  | .destroy t => [.release (.dtor t) (.own (.unbound t)), .dtor t]
  | .finish => [.release (.finish current) (.own current), .finish]
  | .exit => [.release (.exit x) (.own x)]
  | _ => []

/-- The program on the stack of `x` has started the action, from `p'`. -/
structure Acts (s s' : State Θ T A) (x : TaskId Θ T) (action : Action T A) (p' : Pc Θ T A) :
    Prop where
  user : s.pc x = .user
  self : s'.pc x = p'
  other : ∀ z, z ≠ x → s'.pc z = s.pc z ∨
    ∃ t, z = .unbound t ∧ action = .create t ∧ s'.pc z = .start
  calls : p'.calls ⊆ action.calls x (s.wrapper x)
  leaving : p'.leaving = none
  notifying : p'.notifying = none
  ended : p'.ended = false
  guarded : p'.guarded = false
  exec : s'.exec = s.exec
  aw : s'.aw = s.aw
  task : ∀ z, s'.task z = s.task z ∨
    ∃ t, z = .unbound t ∧ action = .create t ∧ (s'.task z).state = .running
  create : ∀ t, action = .create t →
    s.life (.unbound t) = .unborn ∧ s'.life (.unbound t) = .constructing
  destroy : ∀ t, action = .destroy t →
    s.life (.unbound t) = .alive ∧ s'.life (.unbound t) = .dying
  join : ∀ t, action = .join t → s.life (.unbound t) ≠ .destroyed
  life : ∀ z, s'.life z = s.life z ∨
    ∃ t, z = .unbound t ∧ (action = .create t ∨ action = .destroy t)
  returned : ∀ t, s'.returned t = s.returned t ∨
    (action = .finish ∧ x = .unbound t ∧ s'.returned t = true)
  finish : action = .finish → ∃ t, x = .unbound t ∧ s'.returned t = true

/-- The action only moves its stack. -/
def Action.moves : Action T A → Bool
  | .create _ | .destroy _ | .finish => false
  | _ => true

omit [DecidableEq A] in
theorem Acts.setPc {action : Action T A} (hpc : s.pc x = .user)
    (hc : p'.calls ⊆ action.calls x (s.wrapper x)) (hl : p'.leaving = none)
    (hn : p'.notifying = none) (he : p'.ended = false) (hg : p'.guarded = false)
    (hmoves : action.moves = true)
    (hjoin : ∀ t, action = .join t → s.life (.unbound t) ≠ .destroyed) :
    Acts s (s.setPc x p') x action p' where
  user := hpc
  self := by simp [State.setPc]
  other := by
    intro z hz
    simp [State.setPc, hz]
  calls := hc
  leaving := hl
  notifying := hn
  ended := he
  guarded := hg
  exec := rfl
  aw := rfl
  task := fun _ => .inl rfl
  create := by
    rintro t rfl
    cases hmoves
  destroy := by
    rintro t rfl
    cases hmoves
  join := hjoin
  life := fun _ => .inl rfl
  returned := fun _ => .inl rfl
  finish := by
    rintro rfl
    cases hmoves

omit [DecidableEq A] in
theorem acts_of_actionStep {bg : Θ → Bool} {action : Action T A} (hpc : s.pc x = .user)
    (h : actionStep bg s θ x action = some s') : ∃ p', Acts s s' x action p' := by
  cases action with
  -- calls that move the control point and write nothing
  | wait a =>
      simp only [actionStep] at h
      split at h
      next => cases h
      next =>
        injection h with h
        subst h
        exact ⟨_, .setPc hpc (List.nil_subset _) rfl rfl rfl rfl rfl fun _ ht => by cases ht⟩
  | release a =>
      simp only [actionStep] at h
      split at h
      next => cases h
      next =>
        injection h with h
        subst h
        exact ⟨_, .setPc hpc (List.Subset.refl _) rfl rfl rfl rfl rfl fun _ ht => by cases ht⟩
  | join t =>
      simp only [actionStep] at h
      split at h
      next => cases h
      next hguard =>
        injection h with h
        subst h
        refine ⟨_, .setPc hpc (List.Subset.refl _) rfl rfl rfl rfl rfl fun u hu hd => ?_⟩
        cases hu
        exact hguard (.inr (.inr hd))
  | yield =>
      injection h with h
      subst h
      exact ⟨_, .setPc hpc (List.nil_subset _) rfl rfl rfl rfl rfl fun _ ht => by cases ht⟩
  -- a creation writes the new object as well: its life, its task data and
  -- its control point
  | create t =>
      simp only [actionStep] at h
      split at h
      next => cases h
      next hguard =>
        injection h with h
        subst h
        have hunborn : s.life (.unbound t) = .unborn := by
          by_contra hne
          exact hguard (.inr hne)
        refine ⟨.switchTo (.ctor t) (.unbound t), hpc, by simp [State.setPc], fun z hz => ?_,
          List.Subset.refl _, rfl, rfl, rfl, rfl, rfl, rfl, fun z => ?_, fun u hu => ?_,
          fun u hu => ?_, fun u hu => ?_, fun z => ?_, fun _ => .inl rfl, fun hf => ?_⟩
        · by_cases hzt : z = .unbound t
          · subst hzt
            exact .inr ⟨t, rfl, rfl, by simp [State.setPc, hz]⟩
          · exact .inl (by simp [State.setPc, State.setLife, State.setTask, hz, hzt])
        · by_cases hzt : z = .unbound t
          · subst hzt
            exact .inr ⟨t, rfl, rfl, by simp [State.setPc, State.setLife, State.setTask]⟩
          · exact .inl (by simp [State.setPc, State.setLife, State.setTask, hzt])
        · cases hu
          exact ⟨hunborn, by simp [State.setPc, State.setLife]⟩
        · cases hu
        · cases hu
        · by_cases hzt : z = .unbound t
          · exact .inr ⟨t, hzt, .inl rfl⟩
          · exact .inl (by simp [State.setPc, State.setLife, State.setTask, hzt])
        · cases hf
  | destroy t =>
      simp only [actionStep] at h
      split at h
      next => cases h
      next hguard =>
        injection h with h
        subst h
        have halive : s.life (.unbound t) = .alive := by
          by_contra hne
          exact hguard (.inr hne)
        refine ⟨.release (.dtor t) (.own (.unbound t)) .load, hpc, by simp [State.setPc],
          fun z hz => ?_, List.Subset.refl _, rfl, rfl, rfl, rfl, rfl, rfl, fun _ => .inl rfl,
          fun u hu => ?_, fun u hu => ?_, fun u hu => ?_, fun z => ?_, fun _ => .inl rfl,
          fun hf => ?_⟩
        · exact .inl (by simp [State.setPc, State.setLife, hz])
        · cases hu
        · cases hu
          exact ⟨halive, by simp [State.setPc, State.setLife]⟩
        · cases hu
        · by_cases hzt : z = .unbound t
          · exact .inr ⟨t, hzt, .inr rfl⟩
          · exact .inl (by simp [State.setPc, State.setLife, hzt])
        · cases hf
  -- only a `Task` has a runner function that can end
  | finish =>
      cases x with
      | native θ' => cases h
      | unbound t =>
          injection h with h
          subst h
          refine ⟨.release (.finish (s.wrapper (.unbound t))) (.own (s.wrapper (.unbound t))) .load,
            hpc, by simp [State.setPc], fun z hz => ?_, List.Subset.refl _, rfl, rfl, rfl, rfl, rfl,
            rfl, fun _ => .inl rfl, fun u hu => ?_, fun u hu => ?_, fun u hu => ?_,
            fun _ => .inl rfl, fun u => ?_, fun _ => ⟨t, rfl, by simp [State.setPc]⟩⟩
          · exact .inl (by simp [State.setPc, hz])
          · cases hu
          · cases hu
          · cases hu
          · by_cases hut : u = t
            · subst hut
              exact .inr ⟨rfl, rfl, by simp [State.setPc]⟩
            · exact .inl (by simp [State.setPc, hut])
  -- and only a native task can leave its thread
  | exit =>
      cases x with
      | native θ' =>
          injection h with h
          subst h
          exact ⟨_, .setPc hpc (List.Subset.refl _) rfl rfl rfl rfl rfl fun _ ht => by cases ht⟩
      | unbound t => cases h

/-! ## §2. All steps. -/

/-- **What a step is**: an access of the control point, a switch, or an action
of the program. -/
theorem step_cases {bg : Θ → Bool} {l : Label Θ T A} (h : step bg s l = some s') :
    (∃ p', Inner s s' (s.exec l.1) p') ∨
      (∃ ret newTask, s.pc (s.exec l.1) = .switchTo ret newTask ∧
        switchStep s l.1 (s.exec l.1) ret newTask = some s') ∨
      ∃ action p', l.2 = .act action ∧ Acts s s' (s.exec l.1) action p' := by
  obtain ⟨θ, c⟩ := l
  cases c with
  | go spurious =>
      have hgo : goStep bg s θ (s.exec θ) spurious (s.pc (s.exec θ)) = some s' := by
        simpa only [step] using h
      rcases goStep_cases hgo with h | h
      · exact .inl h
      · exact .inr (.inl h)
  | pick t =>
      cases hpc : s.pc (s.exec θ) with
      | schedule ret me pc =>
          simp only [step, hpc] at h
          cases pc with
          | queue => exact .inl (inner_pickStep hpc h)
          | _ => cases h
      | _ =>
          simp only [step, hpc] at h
          cases h
  | act action =>
      cases hpc : s.pc (s.exec θ) with
      | user =>
          simp only [step, hpc] at h
          obtain ⟨p', h⟩ := acts_of_actionStep hpc h
          exact .inr (.inr ⟨action, p', rfl, h⟩)
      | _ =>
          simp only [step, hpc] at h
          cases h

/-- What a step does to the point of the stack of `y`. -/
inductive PcStep (s s' : State Θ T A) (l : Label Θ T A) (y : TaskId Θ T) : Prop
  | same (h : s'.pc y = s.pc y)
  | access (hy : y = s.exec l.1) (h : (s.pc y).Leads s (s'.pc y))
  | suspended (hy : y = s.exec l.1) (ret : SchedRet Θ T A) (newTask : TaskId Θ T)
      (hpc : s.pc y = .switchTo ret newTask) (h : s'.pc y = .suspended ret (s.cur l.1))
  | resumed (newTask : TaskId Θ T) (hready : (s.pc (s.exec l.1)).ready = some newTask)
      (hctx : (s.task newTask).context = .fcontext y) (ret : SchedRet Θ T A) (me : TaskId Θ T)
      (fctx : Context (TaskId Θ T))
      (h : s'.pc y = .postJump ret me (s.cur l.1) fctx .clearCurrent)
      (hsub : ret.calls ⊆ (s.pc y).calls)
  | acts (hy : y = s.exec l.1) (action : Action T A) (hl : l.2 = .act action)
      (h : Acts s s' y action (s'.pc y))
  | constructed (hlife : s.life y = .unborn) (h : s'.pc y = .start)

theorem step_pc {bg : Θ → Bool} {l : Label Θ T A} (h : step bg s l = some s') (y : TaskId Θ T) :
    PcStep s s' l y := by
  rcases step_cases h with ⟨p', hin⟩ | ⟨ret, new, hpc, hsw⟩ | ⟨action, p', hl, hact⟩
  · by_cases hy : y = s.exec l.1
    · refine .access hy ?_
      have hself : s'.pc y = p' := by rw [hin.pc, hy, Function.update_self]
      rw [hself, hy]
      exact hin.leads
    · refine .same ?_
      rw [hin.pc, Function.update_of_ne hy]
  · rcases switchStep_pc hpc hsw y with h | ⟨hy, h⟩ | ⟨-, hctx, ret', me, h, hsub⟩
    · exact .same h
    · exact .suspended hy ret new (hy ▸ hpc) h
    · exact .resumed new (by rw [hpc]; rfl) hctx ret' me _ h hsub
  · by_cases hy : y = s.exec l.1
    · subst hy
      refine .acts rfl action hl ?_
      rwa [hact.self]
    · rcases hact.other y hy with h | ⟨t, rfl, ht, h⟩
      · exact .same h
      · exact .constructed (hact.create t ht).1 h

/-- A stack is in no call that it was not in before, unless the program on it
has just started one. -/
theorem step_calls {bg : Θ → Bool} {l : Label Θ T A} (h : step bg s l = some s') {c : Call Θ T A}
    (hc : c ∈ (s'.pc y).calls) :
    c ∈ (s.pc y).calls ∨ (y = s.exec l.1 ∧ ∃ action, l.2 = .act action ∧
      Acts s s' y action (s'.pc y) ∧ c ∈ action.calls y (s.wrapper y)) := by
  cases step_pc h y with
  | same h => exact .inl (h ▸ hc)
  | access hy h => exact .inl (h.calls hc)
  | suspended hy ret new hpc h =>
      rw [h] at hc
      rw [hpc]
      exact .inl hc
  | resumed new hready hctx ret me fctx h hsub =>
      rw [h] at hc
      exact .inl (hsub hc)
  | acts hy action hl h => exact .inr ⟨hy, action, hl, h, h.calls hc⟩
  | constructed hlife h =>
      rw [h] at hc
      cases hc

/-- A stack starts to switch another one out only when it is resumed. -/
theorem step_leaving {bg : Θ → Bool} {l : Label Θ T A} (h : step bg s l = some s')
    (hz : (s'.pc y).leaving = some z) : (s.pc y).leaving = some z ∨ z = s.cur l.1 := by
  cases step_pc h y with
  | same h => exact .inl (h ▸ hz)
  | access hy h =>
      rcases h.leaving with hl | hl <;> rw [hl] at hz
      · cases hz
      · exact .inl hz
  | suspended hy ret new hpc h =>
      rw [h] at hz
      cases hz
  | resumed new hready hctx ret me fctx h hsub =>
      rw [h] at hz
      injection hz with hz
      exact .inr hz.symm
  | acts hy action hl h =>
      rw [h.leaving] at hz
      cases hz
  | constructed hlife h =>
      rw [h] at hz
      cases hz

/-- A stack notifies the bound task that it has just made Running. -/
theorem step_notifying {bg : Θ → Bool} {l : Label Θ T A} (h : step bg s l = some s')
    (hz : (s'.pc y).notifying = some z) : (s.pc y).notifying = some z ∨
      (y = s.exec l.1 ∧ (s.pc y).waking = some z ∧ z.isThreadBound = true) := by
  cases step_pc h y with
  | same h => exact .inl (h ▸ hz)
  | access hy h =>
      rcases h.notifying with hn | ⟨w, hn, hw⟩ <;> rw [hn] at hz
      · cases hz
      · cases hz
        exact .inr ⟨hy, hw⟩
  | suspended hy ret new hpc h =>
      rw [h] at hz
      cases hz
  | resumed new hready hctx ret me fctx h hsub =>
      rw [h] at hz
      cases hz
  | acts hy action hl h =>
      rw [h.notifying] at hz
      cases hz
  | constructed hlife h =>
      rw [h] at hz
      cases hz

theorem step_guarded {bg : Θ → Bool} {l : Label Θ T A} (h : step bg s l = some s')
    (hp : p.guarded = true) (hpc : s'.pc y = p) : s.pc y = p ∨ Pc.Seen s (s.pc y) p := by
  subst hpc
  cases step_pc h y with
  | same h => exact .inl h.symm
  | access hy h => exact .inr h.seen
  | suspended hy ret new hpc h =>
      rw [h] at hp
      cases hp
  | resumed new hready hctx ret me fctx h hsub =>
      rw [h] at hp
      cases hp
  | acts hy action hl h =>
      rw [h.guarded] at hp
      cases hp
  | constructed hlife h =>
      rw [h] at hp
      cases hp

/-- A state changes by the store of the control point, or with the construction
of the task. -/
theorem step_state {bg : Θ → Bool} {l : Label Θ T A} (h : step bg s l = some s')
    (z : TaskId Θ T) : (s'.task z).state = (s.task z).state ∨
      (s.pc (s.exec l.1)).stateStore = some (z, (s'.task z).state) ∨
      ∃ t, z = .unbound t ∧ s.life z = .unborn ∧ (s'.task z).state = .running := by
  rcases step_cases h with ⟨p', hin⟩ | ⟨ret, new, hpc, hsw⟩ | ⟨action, p', hl, hact⟩
  · rcases hin.state z with h | h
    · exact .inl h
    · exact .inr (.inl h)
  · obtain ⟨y, -, -, htask, -⟩ := switchStep_cases hsw
    rw [htask]
    exact .inl rfl
  · rcases hact.task z with h | ⟨t, rfl, ht, hrunning⟩
    · rw [h]
      exact .inl rfl
    · exact .inr (.inr ⟨t, rfl, (hact.create t ht).1, hrunning⟩)

theorem step_context {bg : Θ → Bool} {l : Label Θ T A} (h : step bg s l = some s')
    (z : TaskId Θ T) : (s'.task z).context = (s.task z).context ∨
      (s.pc (s.exec l.1)).contextStore = some (z, (s'.task z).context) ∨
      ∃ t, z = .unbound t ∧ s.life z = .unborn := by
  rcases step_cases h with ⟨p', hin⟩ | ⟨ret, new, hpc, hsw⟩ | ⟨action, p', hl, hact⟩
  · rcases hin.context z with h | h
    · exact .inl h
    · exact .inr (.inl h)
  · obtain ⟨y, -, -, htask, -⟩ := switchStep_cases hsw
    rw [htask]
    exact .inl rfl
  · rcases hact.task z with h | ⟨t, rfl, ht, -⟩
    · rw [h]
      exact .inl rfl
    · exact .inr (.inr ⟨t, rfl, (hact.create t ht).1⟩)

/-- Only `release` finishes an Awaitable. -/
theorem step_isFinished {bg : Θ → Bool} {l : Label Θ T A} (h : step bg s l = some s')
    {a : AwId Θ T A} (ha : (s'.aw a).isFinished = true) : (s.aw a).isFinished = true ∨
      ∃ ret, .release ret a ∈ (s.pc (s.exec l.1)).calls := by
  rcases step_cases h with ⟨p', hin⟩ | ⟨ret, new, hpc, hsw⟩ | ⟨action, p', hl, hact⟩
  · exact hin.isFinished a ha
  · obtain ⟨y, -, -, -, haw, -⟩ := switchStep_cases hsw
    rw [haw] at ha
    exact .inl ha
  · rw [hact.aw] at ha
    exact .inl ha

theorem step_returned {bg : Θ → Bool} {l : Label Θ T A} (h : step bg s l = some s') {t : T}
    (ht : s.returned t = true) : s'.returned t = true := by
  rcases step_cases h with ⟨p', hin⟩ | ⟨ret, new, hpc, hsw⟩ | ⟨action, p', hl, hact⟩
  · rwa [hin.returned]
  · obtain ⟨y, -, -, -, -, -, hret, -⟩ := switchStep_cases hsw
    rwa [hret]
  · rcases hact.returned t with h | ⟨-, -, h⟩
    · rwa [h]
    · exact h

/-- The other threads go on executing what they execute. -/
theorem step_exec {bg : Θ → Bool} {l : Label Θ T A} (h : step bg s l = some s') (hθ : θ ≠ l.1) :
    s'.exec θ = s.exec θ := by
  rcases step_cases h with ⟨p', hin⟩ | ⟨ret, new, hpc, hsw⟩ | ⟨action, p', hl, hact⟩
  · rw [hin.exec]
  · obtain ⟨y, -, hexec, -⟩ := switchStep_cases hsw
    rw [hexec, Function.update_of_ne hθ]
  · rw [hact.exec]

/-- A thread that has exited does nothing. -/
theorem step_not_exited {bg : Θ → Bool} {l : Label Θ T A} (h : step bg s l = some s') :
    s.pc (s.exec l.1) ≠ .exited := by
  intro hpc
  obtain ⟨θ, c⟩ := l
  cases c with
  | go spurious =>
      simp only [step, hpc, goStep] at h
      cases h
  | _ =>
      simp only [step, hpc] at h
      cases h

/-- The end of an OS thread stores Finished. -/
theorem step_exitState {bg : Θ → Bool} {l : Label Θ T A} (h : step bg s l = some s')
    {me : TaskId Θ T} (hpc : s.pc (s.exec l.1) = .exitState me) :
    (s'.task me).state = .finished ∧ s'.exec = s.exec := by
  obtain ⟨θ, c⟩ := l
  cases c with
  | go spurious =>
      simp only [step, hpc, goStep] at h
      injection h with h
      subst h
      exact ⟨by simp [State.setTask, State.setLife, State.setPc], rfl⟩
  | _ =>
      simp only [step, hpc] at h
      cases h

end Scheduler

end Alterstack
