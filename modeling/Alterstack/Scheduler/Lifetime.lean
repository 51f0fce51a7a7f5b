/-
  Alterstack.Scheduler.Lifetime — no step uses a destroyed task object.

  Two stores let another thread destroy a task object: the context that
  `post_jump_fcontext` saves for a Finished task, after which the loop of
  `~Task` can end, and Running for a bound task in
  `add_waiting_list_to_running`, after which its OS thread can return and exit.
  Both functions look at the object once more.

  Main results:
    * `task_used_after_destroy`, `native_used_after_destroy` — the two runs;
    * `no_use_after_destroy` — if objects are destroyed only after that last
      look, no step that is possible touches a destroyed object.
-/
import Alterstack.Scheduler.Joining
import Alterstack.Scheduler.Waiting

namespace Alterstack

namespace Scheduler

open Lib (Machine Layout)
open OsThread

variable {Θ T A : Type*}

/-! ## §1. What a step touches. -/

/-- The task object that an Awaitable is a part of. -/
def AwId.owner : AwId Θ T A → List (TaskId Θ T)
  | .own x => [x]
  | .user _ => []

/-- The task objects that the accesses of a control point read or write on the
thread `θ`, whose `TaskRunner` is one object with its native task. -/
def Pc.touched (θ : Θ) : Pc Θ T A → List (TaskId Θ T)
  | .insert a currentTask _ => a.owner ++ [.native θ, currentTask]
  | .joinState t => [.native θ, .unbound t]
  | .schedule _ currentTask _ => [.native θ, currentTask]
  | .switchTo _ newTask => [.native θ, newTask]
  | .postJump _ currentTask _ _ .clearCurrent => [currentTask]
  | .postJump _ _ prevTask _ _ => [prevTask]
  | .release _ a _ => a.owner
  | .addState _ _ task delayed | .addNotify _ _ _ delayed task | .addContext _ _ _ delayed task
  | .addEnqueue _ _ _ delayed task | .delayedContext _ _ delayed task
  | .delayedEnqueue _ _ delayed task => task :: delayed.toList
  | .finishState current => [current]
  | .exitState this => [this]
  | .dtorState t | .dtorContext t | .dtorFree t => [.unbound t]
  | _ => []

/-- The task objects that a step reads or writes. -/
def touched (s : State Θ T A) (l : Label Θ T A) : List (TaskId Θ T) :=
  let x := s.exec l.1
  match l.2 with
  | .go _ => (s.pc x).touched l.1
  | .pick t => (s.pc x).touched l.1 ++ (t.map .unbound).toList
  | .act (.create t) | .act (.destroy t) | .act (.join t) => [.unbound t]
  | .act .yield => [.native l.1, s.cur l.1]
  | .act .finish => [s.wrapper x]
  | .act .exit => [x]
  | .act (.wait _) | .act (.release _) => []

/-- The step is possible and touches a destroyed object. -/
def UsesDestroyed [DecidableEq Θ] [DecidableEq T] [DecidableEq A] (bg : Θ → Bool)
    (s : State Θ T A) (l : Label Θ T A) : Prop :=
  (step bg s l).isSome ∧ ∃ z ∈ touched s l, s.life z = .destroyed

/-! ## §2. Guarded steps. -/

/-- The `Task` whose storage is about to be freed. -/
def Pc.freeing : Pc Θ T A → Option T
  | .dtorFree t => some t
  | _ => none

/-- The native task whose OS thread is about to end. -/
def Pc.exiting : Pc Θ T A → Option (TaskId Θ T)
  | .exitState this => some this
  | _ => none

/-- Nobody is in a `join` of the task or has yet to look at it after the
switch. -/
def FreesUnused (s : State Θ T A) (l : Label Θ T A) : Prop :=
  ∀ t ∈ (s.pc (s.exec l.1)).freeing, ∀ y,
    (s.pc y).leaving ≠ some (.unbound t) ∧ .join (.unbound t) ∉ (s.pc y).calls

/-- Nobody is about to notify the native task of a thread that ends. -/
def ExitsUnused (s : State Θ T A) (l : Label Θ T A) : Prop :=
  ∀ x ∈ (s.pc (s.exec l.1)).exiting, ∀ y, (s.pc y).notifying ≠ some x

/-- A step that ends the life of no object that is still in use. -/
structure Guarded (s : State Θ T A) (l : Label Θ T A) : Prop where
  steady : Steady s l
  detached : FinishesDetached s l
  frees : FreesUnused s l
  exits : ExitsUnused s l

variable [DecidableEq Θ] [DecidableEq T] [DecidableEq A] {s s' : State Θ T A} {bg : Θ → Bool}
  {l : Label Θ T A} {x y z : TaskId Θ T} {t : T} {θ : Θ}

/-! ## §3. Constructors and destructors. -/

/-- The calls by which a `Task` is constructing or dying. -/
def Call.life : Call Θ T A → Option (T × Life)
  | .ctor t => some (t, .constructing)
  | .dtor t => some (t, .dying)
  | _ => none

omit [DecidableEq Θ] [DecidableEq T] [DecidableEq A] in
/-- Such a call is known by its task and flag. -/
theorem Call.life_inj {c c' : Call Θ T A} {p : T × Life} (h : c.life = some p)
    (h' : c'.life = some p) : c' = c := by
  have hcall : ∀ {d : Call Θ T A}, d.life = some p →
      (d = .ctor p.1 ∧ p.2 = .constructing) ∨ (d = .dtor p.1 ∧ p.2 = .dying) := by
    intro d hd
    cases d with
    | ctor t => cases hd; exact .inl ⟨rfl, rfl⟩
    | dtor t => cases hd; exact .inr ⟨rfl, rfl⟩
    | _ => cases hd
  rcases hcall h with ⟨rfl, hv⟩ | ⟨rfl, hv⟩ <;> rcases hcall h' with ⟨rfl, hv'⟩ | ⟨rfl, hv'⟩
  · rfl
  · rw [hv] at hv'
    cases hv'
  · rw [hv] at hv'
    cases hv'
  · rfl

omit [DecidableEq Θ] [DecidableEq T] [DecidableEq A] in
theorem Call.life_value {c : Call Θ T A} {v : Life} (h : c.life = some (t, v)) :
    v = .constructing ∨ v = .dying := by
  cases c with
  | ctor u => cases h; exact .inl rfl
  | dtor u => cases h; exact .inr rfl
  | _ => cases h

/-- The flags of the task objects, and who may still use them. -/
structure Lives (s : State Θ T A) : Prop where
  releases : ∀ y rel a, .release rel a ∈ (s.pc y).calls → rel.Releases a
  joins : ∀ y θ, .join (.native θ) ∉ (s.pc y).calls
  notifies : ∀ y z, (s.pc y).notifying = some z → z.isThreadBound = true
  owned : ∀ y c t v, c ∈ (s.pc y).calls → c.life = some (t, v) → s.life (.unbound t) = v
  once : ∀ y y' c, c.life.isSome → c ∈ (s.pc y).calls → c ∈ (s.pc y').calls → y' = y
  gone : ∀ t, s.life (.unbound t) = .destroyed →
    (s.pc (.unbound t)).ended = true ∧ (s.pc (.unbound t)).off = true ∧
      ∀ y, (s.pc y).leaving ≠ some (.unbound t) ∧ .join (.unbound t) ∉ (s.pc y).calls
  exited : ∀ θ, s.life (.native θ) = .destroyed →
    s.pc (.native θ) = .exited ∧ (s.task (.native θ)).state = .finished ∧
      s.exec θ = .native θ ∧ ∀ y, (s.pc y).notifying ≠ some (.native θ)

omit [DecidableEq Θ] [DecidableEq T] [DecidableEq A] in
theorem lives_init : Lives (initial : State Θ T A) where
  releases := by rintro (_ | _) rel a h <;> cases h
  joins := by rintro (_ | _) θ h <;> cases h
  notifies := by rintro (_ | _) z h <;> cases h
  owned := by rintro (_ | _) c t v h <;> cases h
  once := by rintro (_ | _) y c _ h <;> cases h
  gone := nofun
  exited := nofun

/-- How the flag of a `Task` changes: the constructor or the destructor that is
in progress ends, or the program constructs it or starts to destroy it. -/
theorem step_life (h : step bg s l = some s') (t : T) :
    s'.life (.unbound t) = s.life (.unbound t) ∨
      (s'.pc (s.exec l.1) = .user ∧ ∃ c v, c.life = some (t, v) ∧
        c ∈ (s.pc (s.exec l.1)).calls) ∨
      s.life (.unbound t) = .unborn ∨ s.life (.unbound t) = .alive ∨
      ∃ me, me = .unbound t ∧ s.pc (s.exec l.1) = .exitState me := by
  rcases step_cases h with ⟨p', hin⟩ | ⟨ret, new, hpc, hsw⟩ | ⟨action, p', hl, hact⟩
  · have hself : s'.pc (s.exec l.1) = p' := by rw [hin.pc, Function.update_self]
    cases hin.life with
    | same hlife => exact .inl (by rw [hlife])
    | constructed u hp hp' hlife =>
        by_cases hut : t = u
        · subst hut
          exact .inr (.inl ⟨hself.trans hp', _, _, rfl, hp⟩)
        · exact .inl (by rw [hlife, Function.update_of_ne (by simpa using hut)])
    | destroyed u hp hp' hlife =>
        by_cases hut : t = u
        · subst hut
          exact .inr (.inl ⟨hself.trans hp', .dtor t, _, rfl, by rw [hp]; exact .head _⟩)
        · exact .inl (by rw [hlife, Function.update_of_ne (by simpa using hut)])
    | exited me hp hp' hlife =>
        by_cases hme : TaskId.unbound t = me
        · exact .inr (.inr (.inr (.inr ⟨me, hme.symm, hp⟩)))
        · exact .inl (by rw [hlife, Function.update_of_ne hme])
  · obtain ⟨y, -, -, -, -, hlife, -⟩ := switchStep_cases hsw
    exact .inl (by rw [hlife])
  · rcases hact.life (.unbound t) with hlife | ⟨u, hu, hcreate | hdestroy⟩
    · exact .inl hlife
    · cases hu
      exact .inr (.inr (.inl (hact.create t hcreate).1))
    · cases hu
      exact .inr (.inr (.inr (.inl (hact.destroy t hdestroy).1)))

/-- What is destroyed was destroyed before, or is freed or ends by this step. -/
theorem step_destroyed (h : step bg s l = some s') (hz : s'.life z = .destroyed) :
    s.life z = .destroyed ∨ (∃ t, z = .unbound t ∧ s.pc (s.exec l.1) = .dtorFree t) ∨
      (s.pc (s.exec l.1) = .exitState z ∧ s'.pc (s.exec l.1) = .exited) := by
  rcases step_cases h with ⟨p', hin⟩ | ⟨ret, new, hpc, hsw⟩ | ⟨action, p', hl, hact⟩
  · have hself : s'.pc (s.exec l.1) = p' := by rw [hin.pc, Function.update_self]
    cases hin.life with
    | same hlife => exact .inl (by rw [← hlife, hz])
    | constructed u hp hp' hlife =>
        by_cases hzu : z = .unbound u
        · rw [hlife, hzu, Function.update_self] at hz
          cases hz
        · rw [hlife, Function.update_of_ne hzu] at hz
          exact .inl hz
    | destroyed u hp hp' hlife =>
        by_cases hzu : z = .unbound u
        · exact .inr (.inl ⟨u, hzu, hp⟩)
        · rw [hlife, Function.update_of_ne hzu] at hz
          exact .inl hz
    | exited me hp hp' hlife =>
        by_cases hme : z = me
        · subst hme
          exact .inr (.inr ⟨hp, hself.trans hp'⟩)
        · rw [hlife, Function.update_of_ne hme] at hz
          exact .inl hz
  · obtain ⟨y, -, -, -, -, hlife, -⟩ := switchStep_cases hsw
    rw [hlife] at hz
    exact .inl hz
  · rcases hact.life z with hlife | ⟨u, rfl, hcreate | hdestroy⟩
    · exact .inl (hlife ▸ hz)
    · rw [(hact.create u hcreate).2] at hz
      cases hz
    · rw [(hact.destroy u hdestroy).2] at hz
      cases hz

namespace Lives

variable {tok : T → Tok Θ T} {L : Layout (Place Θ T A) (TaskId Θ T)}

/-- A constructor or destructor that goes on keeps the flag. -/
theorem owned_prior (hs : Lives s) (h : Inv AnyTask s tok L) (hstep : step bg s l = some s')
    {c : Call Θ T A} {v : Life} (hc : c ∈ (s.pc y).calls) (hc' : c ∈ (s'.pc y).calls)
    (hv : c.life = some (t, v)) : s'.life (.unbound t) = v := by
  have hlife := hs.owned y c t v hc hv
  rcases step_life hstep t with hsame | ⟨huser, d, w, hd, hmem⟩ | hborn | halive | ⟨me, rfl, hpc⟩
  · rw [hsame, hlife]
  · -- the call that ends is this one, so it is not in progress any more
    have hvw : w = v := (hs.owned _ d t w hmem hd).symm.trans hlife
    subst hvw
    obtain rfl := Call.life_inj hv hd
    obtain rfl := hs.once y _ d (by rw [hv]; rfl) hc hmem
    rw [huser] at hc'
    cases hc'
  · rw [hborn] at hlife
    subst hlife
    rcases Call.life_value hv with h | h <;> cases h
  · rw [halive] at hlife
    subst hlife
    rcases Call.life_value hv with h | h <;> cases h
  · have hloc := h.threads.locals (s.exec l.1)
    rw [hpc] at hloc
    rw [← hloc.1] at hloc
    cases hloc.2

omit [DecidableEq Θ] [DecidableEq T] [DecidableEq A] in
/-- A constructor or destructor starts from another flag. -/
theorem owned_started {p' : Pc Θ T A} {action : Action T A} {c : Call Θ T A} {v : Life}
    (hact : Acts s s' x action p') (hc : c ∈ action.calls x (s.wrapper x))
    (hv : c.life = some (t, v)) : s'.life (.unbound t) = v ∧
      (s.life (.unbound t) = .unborn ∨ s.life (.unbound t) = .alive) := by
  cases action with
  | create u =>
      obtain rfl : c = .ctor u := by simpa [Action.calls] using hc
      cases hv
      exact ⟨(hact.create _ rfl).2, .inl (hact.create _ rfl).1⟩
  | destroy u =>
      rcases List.mem_cons.mp hc with rfl | hc
      · cases hv
      · obtain rfl : c = .dtor u := by simpa using hc
        cases hv
        exact ⟨(hact.destroy _ rfl).2, .inr (hact.destroy _ rfl).1⟩
  | release a =>
      obtain rfl : c = .release .user (.user a) := by simpa [Action.calls] using hc
      cases hv
  | join u =>
      obtain rfl : c = .join (.unbound u) := by simpa [Action.calls] using hc
      cases hv
  | finish =>
      rcases List.mem_cons.mp hc with rfl | hc
      · cases hv
      · obtain rfl : c = .finish := by simpa using hc
        cases hv
  | exit =>
      obtain rfl : c = .release (.exit x) (.own x) := by simpa [Action.calls] using hc
      cases hv
  | _ => cases hc

theorem owned_step (hs : Lives s) (h : Inv AnyTask s tok L) (hstep : step bg s l = some s')
    (y : TaskId Θ T) (c : Call Θ T A) (t : T) (v : Life) (hc : c ∈ (s'.pc y).calls)
    (hv : c.life = some (t, v)) : s'.life (.unbound t) = v := by
  rcases step_calls hstep hc with hprior | ⟨-, action, -, hact, hstart⟩
  · exact hs.owned_prior h hstep hprior hc hv
  · exact (owned_started hact hstart hv).1

theorem once_step (hs : Lives s) (hstep : step bg s l = some s') (y y' : TaskId Θ T)
    (c : Call Θ T A) (hlife : c.life.isSome) (hc : c ∈ (s'.pc y).calls)
    (hc' : c ∈ (s'.pc y').calls) : y' = y := by
  obtain ⟨⟨t, v⟩, hv⟩ := Option.isSome_iff_exists.mp hlife
  -- a call that starts is in progress nowhere else
  have hnew : ∀ {w w' action}, c ∈ (s.pc w).calls → Acts s s' w' action (s'.pc w') →
      c ∈ action.calls w' (s.wrapper w') → False := by
    intro w w' action hmem hact hstart
    have := hs.owned w c t v hmem hv
    rcases (owned_started hact hstart hv).2 with hl | hl
    all_goals
      rw [this] at hl
      subst hl
      rcases Call.life_value hv with h | h <;> cases h
  rcases step_calls hstep hc with h | ⟨hy, action, -, hact, h⟩ <;>
    rcases step_calls hstep hc' with h' | ⟨hy', action', -, hact', h'⟩
  · exact hs.once y y' c hlife h h'
  · exact (hnew h hact' h').elim
  · exact (hnew h' hact h).elim
  · exact hy'.trans hy.symm

/-! ## §4. Destroyed objects. -/

/-- A `Task` is freed only after its last switch, and then nobody uses it. -/
theorem gone_step (hs : Lives s) (h : Inv AnyTask s tok L) (hset : Settled s)
    (hok : FreesUnused s l) (hstep : step bg s l = some s') (t : T)
    (hd : s'.life (.unbound t) = .destroyed) :
    (s'.pc (.unbound t)).ended = true ∧ (s'.pc (.unbound t)).off = true ∧
      ∀ y, (s'.pc y).leaving ≠ some (.unbound t) ∧ .join (.unbound t) ∉ (s'.pc y).calls := by
  have hbefore : ((s.pc (.unbound t)).ended = true ∧ (s.pc (.unbound t)).off = true ∧
      ∀ y, (s.pc y).leaving ≠ some (.unbound t) ∧ .join (.unbound t) ∉ (s.pc y).calls) ∧
      (s.pc (s.exec l.1) = .user → s.life (.unbound t) = .destroyed) := by
    rcases step_destroyed hstep hd with hlife | ⟨u, hu, hpc⟩ | ⟨hpc, -⟩
    · exact ⟨hs.gone t hlife, fun _ => hlife⟩
    · cases hu
      obtain ⟨he, ho⟩ := hset.suspended _ t hpc
      refine ⟨⟨he, ho, hok t (by rw [hpc]; rfl)⟩, fun huser => ?_⟩
      rw [hpc] at huser
      cases huser
    · have hloc := h.threads.locals (s.exec l.1)
      rw [hpc] at hloc
      rw [← hloc.1] at hloc
      cases hloc.2
  obtain ⟨⟨he, ho, huse⟩, huser⟩ := hbefore
  -- an ended stack that is off moves no more
  have hstay := ended_off_step ⟨tok, L, h⟩ hstep he ho
  refine ⟨by rw [hstay, he], by rw [hstay, ho], fun y => ⟨fun hleave => ?_, fun hjoin => ?_⟩⟩
  · rcases step_leaving hstep hleave with hl | hcur
    · exact (huse y).1 hl
    · rw [h.threads.cur_eq] at hcur
      exact h.threads.not_exec_of_off ho hcur.symm
  · rcases step_calls hstep hjoin with hc | ⟨rfl, action, -, hact, hc⟩
    · exact (huse y).2 hc
    · cases action with
      | join u =>
          obtain rfl : t = u := by simpa [Action.calls] using hc
          exact hact.join t rfl (huser hact.user)
      | _ => simp [Action.calls] at hc

/-- An OS thread that has ended does nothing, and nobody notifies its task. -/
theorem exited_step (hs : Lives s) (h : Inv AnyTask s tok L) (hok : ExitsUnused s l)
    (hstep : step bg s l = some s') (θ : Θ) (hd : s'.life (.native θ) = .destroyed) :
    s'.pc (.native θ) = .exited ∧ (s'.task (.native θ)).state = .finished ∧
      s'.exec θ = .native θ ∧ ∀ y, (s'.pc y).notifying ≠ some (.native θ) := by
  rcases step_destroyed hstep hd with hlife | ⟨u, hu, -⟩ | ⟨hpc, hpc'⟩
  · obtain ⟨hpc, hst, hex, hnot⟩ := hs.exited θ hlife
    have hne : s.exec l.1 ≠ .native θ := fun hx => step_not_exited hstep (by rw [hx, hpc])
    have hθ : θ ≠ l.1 := fun hθ => hne (hθ ▸ hex)
    refine ⟨?_, finished_step ⟨tok, L, h⟩ hstep (.inr trivial) hst, ?_, fun y hy => ?_⟩
    · cases step_pc hstep (.native θ) with
      | same hsame => rw [hsame, hpc]
      | access hy _ => exact absurd hy.symm hne
      | suspended hy _ _ _ _ => exact absurd hy.symm hne
      | resumed new hready hctx _ _ _ _ _ =>
          -- only the stack on this thread can switch to its native task
          obtain rfl := h.tokens.fcontext new _ hctx
          exact absurd ((h.tokens.readyNative _ θ hready).symm.trans hex) hne
      | acts hy _ _ _ => exact absurd hy.symm hne
      | constructed hborn _ =>
          rw [hlife] at hborn
          cases hborn
    · rw [step_exec hstep hθ, hex]
    · rcases step_notifying hstep hy with hy | ⟨-, hy, -⟩
      · exact hnot y hy
      · have := h.waking_waiting hy (.inr trivial)
        rw [hst] at this
        cases this
  · cases hu
  · have hloc := h.threads.locals (s.exec l.1)
    rw [hpc] at hloc
    have hx : s.exec l.1 = .native θ := hloc.1.symm
    obtain rfl := h.threads.native l.1 θ hx
    obtain ⟨hst, hexec⟩ := step_exitState hstep hpc
    refine ⟨hx ▸ hpc', hst, by rw [hexec, hx], fun y hy => ?_⟩
    rcases step_notifying hstep hy with hy | ⟨rfl, hy, -⟩
    · exact hok _ (by rw [hpc]; rfl) y hy
    · rw [hpc] at hy
      cases hy

/-- **A guarded step keeps the lives of the task objects.** -/
theorem step (hs : Lives s) (h : Inv AnyTask s tok L) (hset : Settled s) (hok : Guarded s l)
    (hstep : step bg s l = some s') : Lives s' where
  releases := releases_step hs.releases hstep
  joins := by
    intro y θ hc
    rcases step_calls hstep hc with hc | ⟨-, action, -, -, hc⟩
    · exact hs.joins y θ hc
    · cases action <;> simp [Action.calls] at hc
  notifies := by
    intro y z hz
    rcases step_notifying hstep hz with hz | ⟨-, -, hb⟩
    · exact hs.notifies y z hz
    · exact hb
  owned := hs.owned_step h hstep
  once := hs.once_step hstep
  gone := hs.gone_step h hset hok.frees hstep
  exited := hs.exited_step h hok.exits hstep

end Lives

/-- Guarded runs keep all invariants. -/
theorem lives_of_guarded (h : (machine T A bg).Reach Guarded s) :
    Good AnyTask s ∧ Settled s ∧ Lives s := by
  refine h.invariant (I := fun s => Good AnyTask s ∧ Settled s ∧ Lives s) ?_ ?_
  · rintro s rfl
    exact ⟨inv_init, settled_init, lives_init⟩
  · rintro s l u ⟨hg, hset, hs⟩ hok hstep
    refine ⟨inv_step (fun _ => trivial) hg hok.steady.orderly hstep,
      settled_step hg hset hok.detached hstep, ?_⟩
    obtain ⟨tok, L, hinv⟩ := hg
    exact hs.step hinv hset hok hstep

/-! ## §5. No step uses a destroyed object. -/

/-- The stack `x`, about to make a step on the thread `θ`, has nothing to do with
the object `z`. -/
structure Unused (s : State Θ T A) (θ : Θ) (x z : TaskId Θ T) : Prop where
  self : z ≠ x
  native : z ≠ .native θ
  ready : (s.pc x).ready ≠ some z
  leaving : (s.pc x).leaving ≠ some z
  waking : (s.pc x).waking ≠ some z
  notifying : (s.pc x).notifying ≠ some z
  join : .join z ∉ (s.pc x).calls
  release : ∀ rel, .release rel (.own z) ∉ (s.pc x).calls
  dtor : ∀ t, z = .unbound t → .dtor t ∉ (s.pc x).calls
  queued : ∀ t, z = .unbound t → s.queued t = 0

variable {tok : T → Tok Θ T} {L : Layout (Place Θ T A) (TaskId Θ T)}

omit [DecidableEq Θ] [DecidableEq T] [DecidableEq A] in
/-- The Awaitable of another object is released in its destructor only. -/
theorem not_release_of_other (hs : Lives s) (h : Inv AnyTask s tok L) (hzx : z ≠ x)
    (hdtor : ∀ t, z = .unbound t → .dtor t ∉ (s.pc x).calls) (rel : ReleaseRet Θ T) :
    .release rel (.own z) ∉ (s.pc x).calls := by
  intro hrel
  obtain ⟨hof, hsub⟩ := Pc.around_release (h.threads.locals x) hrel
  have := hs.releases x rel _ hrel
  cases rel with
  | user =>
      obtain ⟨b, hb⟩ := this
      cases hb
  | dtor t =>
      cases this
      exact hdtor t rfl (hsub _ (.head _))
  | finish current =>
      cases this
      exact hzx hof.1
  | exit me =>
      cases this
      exact hzx hof.1

omit [DecidableEq Θ] [DecidableEq T] [DecidableEq A] in
theorem unused_unbound (hs : Lives s) (h : Inv AnyTask s tok L) {t : T}
    (hd : s.life (.unbound t) = .destroyed) : Unused s θ (s.exec θ) (.unbound t) := by
  obtain ⟨he, ho, huse⟩ := hs.gone t hd
  have hfin := h.tokens.ended t he
  have hself : TaskId.unbound t ≠ s.exec θ := fun hx => h.threads.not_exec_of_off ho hx.symm
  have hdtor : ∀ u, (.unbound t : TaskId Θ T) = .unbound u →
      .dtor u ∉ (s.pc (s.exec θ)).calls := by
    rintro u hu hc
    cases hu
    have := hs.owned _ _ t _ hc rfl
    rw [hd] at this
    cases this
  -- a destroyed task is Finished, which no waker, dequeuer or notifier can meet
  refine ⟨hself, nofun, h.not_ready_of_ended he _, (huse _).1, fun hw => ?_, fun hn => ?_,
    (huse _).2, not_release_of_other hs h hself hdtor, hdtor, fun u hu => ?_⟩
  · have := h.waking_waiting hw (.inl rfl)
    rw [hfin] at this
    cases this
  · cases hs.notifies _ _ hn
  · cases hu
    by_contra hq
    have := (h.tokens.only_of_queued (Nat.pos_of_ne_zero hq)).2.2.2
    rw [hfin] at this
    cases this

omit [DecidableEq Θ] [DecidableEq T] [DecidableEq A] in
theorem unused_native (hs : Lives s) (h : Inv AnyTask s tok L) {θ' : Θ}
    (hd : s.life (.native θ') = .destroyed) (hexited : s.pc (s.exec θ) ≠ .exited) :
    Unused s θ (s.exec θ) (.native θ') := by
  obtain ⟨hpc, hst, hex, hnot⟩ := hs.exited θ' hd
  have hself : TaskId.native θ' ≠ s.exec θ := fun hx => hexited (hx ▸ hpc)
  refine ⟨hself, fun hθ => ?_, fun hr => ?_, fun hl => ?_, fun hw => ?_, hnot _, hs.joins _ _,
    not_release_of_other hs h hself nofun, nofun, nofun⟩
  · cases hθ
    exact hself hex.symm
  · exact hself (hex.symm.trans (h.tokens.readyNative _ θ' hr))
  · exact hself (hex.symm.trans (h.tokens.leavingNative _ θ' hl))
  · have := h.waking_waiting hw (.inr trivial)
    rw [hst] at this
    cases this

omit [DecidableEq Θ] [DecidableEq T] [DecidableEq A] in
/-- Whatever a control point touches concerns its stack. -/
theorem Unused.not_touched (hu : Unused s θ x z) (hloc : (s.pc x).Local x) :
    z ∉ (s.pc x).touched θ := by
  obtain ⟨hself, hnative, hready, hleaving, hwaking, hnotifying, hjoin, hrelease, hdtor, -⟩ := hu
  intro hz
  -- one case per point: the object it reads or writes is one of those `hu`
  -- excludes
  cases hpc : s.pc x with
  | insert a me pc =>
      rw [hpc] at hz hloc hjoin
      rcases List.mem_append.mp hz with hz | hz
      · cases a with
        | user b => cases hz
        | own w =>
            obtain rfl : z = w := by simpa [AwId.owner] using hz
            exact hjoin (.head _)
      · rcases List.mem_pair.mp hz with hz | hz
        · exact hnative hz
        · exact hself (hz.trans hloc)
  | joinState t =>
      rw [hpc] at hz hjoin
      rcases List.mem_pair.mp hz with hz | hz
      · exact hnative hz
      · subst hz
        exact hjoin (.head _)
  | schedule ret me pc =>
      rw [hpc] at hz hloc
      rcases List.mem_pair.mp hz with hz | hz
      · exact hnative hz
      · exact hself (hz.trans hloc.1)
  | switchTo ret new =>
      rw [hpc] at hz hready
      rcases List.mem_pair.mp hz with hz | hz
      · exact hnative hz
      · exact hready (congrArg some hz.symm)
  | postJump ret me prev fctx pc =>
      rw [hpc] at hz hloc hready hleaving
      cases pc with
      | clearCurrent => exact hself ((List.mem_singleton.mp hz).trans hloc.1)
      | savePrev => exact hleaving (congrArg some (List.mem_singleton.mp hz).symm)
      | prevState => exact hleaving (congrArg some (List.mem_singleton.mp hz).symm)
      | enqueue => exact hready (congrArg some (List.mem_singleton.mp hz).symm)
  | release rel a pc =>
      rw [hpc] at hz hrelease
      cases a with
      | user b => cases hz
      | own w =>
          obtain rfl : z = w := by simpa [Pc.touched, AwId.owner] using hz
          exact hrelease rel (.head _)
  | addState rel a w delayed =>
      rw [hpc] at hz hloc hwaking
      obtain ⟨-, rfl⟩ := hloc
      exact hwaking (congrArg some (List.mem_singleton.mp hz).symm)
  | addNotify rel a taskList delayed w =>
      rw [hpc] at hz hloc hnotifying
      obtain ⟨-, rfl⟩ := hloc
      exact hnotifying (congrArg some (List.mem_singleton.mp hz).symm)
  | addContext rel a taskList delayed w =>
      rw [hpc] at hz hloc hready
      obtain ⟨-, rfl, -⟩ := hloc
      exact hready (congrArg some (List.mem_singleton.mp hz).symm)
  | addEnqueue rel a taskList delayed w =>
      rw [hpc] at hz hloc hready
      obtain ⟨-, rfl, -⟩ := hloc
      exact hready (congrArg some (List.mem_singleton.mp hz).symm)
  | delayedContext => rw [hpc] at hloc; exact hloc
  | delayedEnqueue => rw [hpc] at hloc; exact hloc
  | finishState me =>
      rw [hpc] at hz hloc
      exact hself ((List.mem_singleton.mp hz).trans hloc.1)
  | exitState me =>
      rw [hpc] at hz hloc
      exact hself ((List.mem_singleton.mp hz).trans hloc.1)
  | dtorState t =>
      rw [hpc] at hz hdtor
      exact hdtor t (List.mem_singleton.mp hz) (.head _)
  | dtorContext t =>
      rw [hpc] at hz hdtor
      exact hdtor t (List.mem_singleton.mp hz) (.head _)
  | dtorFree t =>
      rw [hpc] at hz hdtor
      exact hdtor t (List.mem_singleton.mp hz) (.head _)
  | _ =>
      rw [hpc] at hz
      cases hz

/-- **No step that is possible in a guarded run touches a destroyed object.** -/
theorem no_use_after_destroy (h : (machine T A bg).Reach Guarded s) (l : Label Θ T A) :
    ¬ UsesDestroyed bg s l := by
  rintro ⟨hsome, z, hz, hd⟩
  obtain ⟨s', hstep⟩ := Option.isSome_iff_exists.mp hsome
  obtain ⟨⟨tok, L, hinv⟩, -, hs⟩ := lives_of_guarded h
  have hu : Unused s l.1 (s.exec l.1) z := by
    cases z with
    | unbound t => exact unused_unbound hs hinv hd
    | native θ => exact unused_native hs hinv hd (step_not_exited hstep)
  have hgo := hu.not_touched (hinv.threads.locals _)
  obtain ⟨θ, c⟩ := l
  cases c with
  | go spurious => exact hgo hz
  | pick t =>
      rcases List.mem_append.mp hz with hz | hz
      · exact hgo hz
      · cases t with
        | none => cases hz
        | some t =>
            -- only a stored task is picked
            obtain rfl : z = .unbound t := by simpa using hz
            have hq := hu.queued t rfl
            cases hpc : s.pc (s.exec θ) with
            | schedule ret me pc =>
                cases pc with
                | queue => simp [step, hpc, pickStep, hq] at hstep
                | _ => simp [step, hpc] at hstep
            | _ => simp [step, hpc] at hstep
  | act action =>
      cases hpc : s.pc (s.exec θ) with
      | user =>
          simp only [step, hpc] at hstep
          obtain ⟨p', hact⟩ := acts_of_actionStep hpc hstep
          cases action with
          | wait a => cases hz
          | release a => cases hz
          | join t =>
              obtain rfl := List.mem_singleton.mp hz
              exact hact.join t rfl hd
          | yield =>
              rcases List.mem_pair.mp hz with hz | hz
              · exact hu.native hz
              · exact hu.self (hz.trans (hinv.threads.cur_eq θ))
          | create t =>
              obtain rfl := List.mem_singleton.mp hz
              rw [(hact.create t rfl).1] at hd
              cases hd
          | destroy t =>
              obtain rfl := List.mem_singleton.mp hz
              rw [(hact.destroy t rfl).1] at hd
              cases hd
          | finish => exact hu.self ((List.mem_singleton.mp hz).trans (hinv.threads.wrapper_eq _))
          | exit => exact hu.self (List.mem_singleton.mp hz)
      | _ => simp [step, hpc] at hstep

instance [Fintype Θ] [Fintype T] (s : State Θ T A) (l : Label Θ T A) : Decidable (Guarded s l) :=
  decidable_of_iff
    (Steady s l ∧ (∀ x ∈ (s.pc (s.exec l.1)).finishing, (s.task x).context = .null) ∧
      (∀ t ∈ (s.pc (s.exec l.1)).freeing, ∀ y,
        (s.pc y).leaving ≠ some (.unbound t) ∧ Call.join (.unbound t) ∉ (s.pc y).calls) ∧
      ∀ x ∈ (s.pc (s.exec l.1)).exiting, ∀ y, (s.pc y).notifying ≠ some x)
    ⟨fun h => ⟨h.1, h.2.1, h.2.2.1, h.2.2.2⟩, fun h => ⟨h.1, h.2, h.3, h.4⟩⟩

/-- The task has ended and is destroyed after its last switch; the second thread
exits. -/
def destroyedAtRest : List (Label OsThread Unit Unit) :=
  destroyedAfterSwitch ++ goes main 1 ++ (second, .act .exit) :: goes second 3

theorem no_use_after_destroy_destroyedAtRest : ∃ s : State OsThread Unit Unit,
    s.life (.unbound ()) = .destroyed ∧ s.life (.native second) = .destroyed ∧
      ¬ UsesDestroyed (fun _ => false) s (main, .act .yield) := by
  obtain ⟨s, hs, hp⟩ := Machine.exists_reach_of_replayOk
    (machine Unit Unit fun _ : OsThread => false) Guarded destroyedAtRest
    (fun s => s.life (.unbound ()) == .destroyed && s.life (.native second) == .destroyed) rfl
    (by decide +kernel)
  simp only [Bool.and_eq_true, beq_iff_eq] at hp
  exact ⟨s, hp.1, hp.2, no_use_after_destroy hs _⟩

/-! ## §6. Objects destroyed too early. -/

/-- The task ends on the second thread, whose native task has saved its context
and still has to read its state; the first thread destroys it. -/
def destroyedWhileLeaving : List (Label OsThread Unit Unit) :=
  (main, .act (.create ())) :: goes main 4 ++ (main, .act .yield) :: goes main 7 ++
    (second, .act .yield) :: (second, .pick (some ())) :: goes second 4 ++
    (second, .act .finish) :: goes second 8 ++ (main, .act (.destroy ())) :: goes main 4

/-- **`post_jump_fcontext` reads the state of a destroyed task.** -/
theorem task_used_after_destroy : ∃ s : State OsThread Unit Unit,
    (machine Unit Unit fun _ => false).Reachable s ∧
      UsesDestroyed (fun _ => false) s (second, .go false) := by
  obtain ⟨s, hs, hp⟩ := Machine.exists_reach_of_replay
    (machine Unit Unit fun _ : OsThread => false) destroyedWhileLeaving
    (fun s => (step (fun _ => false) s (second, .go false)).isSome &&
      ((touched s (second, .go false)).contains (.unbound ()) &&
        s.life (.unbound ()) == .destroyed)) rfl (by decide +kernel)
  simp only [Bool.and_eq_true, beq_iff_eq, List.contains_iff_mem] at hp
  exact ⟨s, hs, hp.1, .unbound (), hp.2.1, hp.2.2⟩

/-- The native task of the second thread waits and is released; it returns and
the thread exits before it is notified. -/
def exitedBeforeNotify : List (Label OsThread Unit Unit) :=
  (second, .act (.wait ())) :: goes second 4 ++ (second, .pick none) ::
    (main, .act (.release ())) :: goes main 3 ++ goes second 2 ++
    (second, .act .exit) :: goes second 3

/-- **`add_waiting_list_to_running` notifies a destroyed native task.** -/
theorem native_used_after_destroy : ∃ s : State OsThread Unit Unit,
    (machine Unit Unit fun _ => false).Reachable s ∧
      UsesDestroyed (fun _ => false) s (main, .go false) := by
  obtain ⟨s, hs, hp⟩ := Machine.exists_reach_of_replay
    (machine Unit Unit fun _ : OsThread => false) exitedBeforeNotify
    (fun s => (step (fun _ => false) s (main, .go false)).isSome &&
      ((touched s (main, .go false)).contains (.native second) &&
        s.life (.native second) == .destroyed)) rfl (by decide +kernel)
  simp only [Bool.and_eq_true, beq_iff_eq, List.contains_iff_mem] at hp
  exact ⟨s, hs, hp.1, .native second, hp.2.1, hp.2.2⟩

end Scheduler

end Alterstack
