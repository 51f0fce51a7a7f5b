/-
  Alterstack.Lib.Object — objects specified by what their calls may do.

  An object has an initial value and says which event (a call together with
  what it returned) may take it from one value to the next.  `Legal log a`
  says that the calls of `log`, newest first, took effect one after another
  and have left the value `a`.

  Main results:
    * `Object.Legal.simulate` — what one object allows, another does;
    * `Machine.Reach.legal` — the forward simulation rule: a machine whose
      every step is invisible or takes effect as one event of the object has
      only legal logs;
    * `Machine.Run.legal` — the same from an arbitrary state, for what its run
      adds to the log.
-/
import Alterstack.Lib.Machine

namespace Alterstack.Lib

/-- An initial value, and what a call with its result does to a value. -/
structure Object (α ε : Type*) where
  init : α
  step : α → ε → α → Prop

namespace Object

variable {α ε : Type*}

/-- The events of the log, newest first, lead from the initial value to `a`. -/
inductive Legal (O : Object α ε) : List ε → α → Prop
  | nil : Legal O [] O.init
  | cons {log : List ε} {a b : α} {e : ε} : Legal O log a → O.step a e b → Legal O (e :: log) b

variable {O : Object α ε}

theorem legal_nil {a : α} : O.Legal [] a ↔ a = O.init := by
  constructor
  · rintro ⟨⟩
    rfl
  · rintro rfl
    exact .nil

theorem legal_cons {log : List ε} {b : α} {e : ε} :
    O.Legal (e :: log) b ↔ ∃ a, O.Legal log a ∧ O.step a e b := by
  constructor
  · rintro (_ | ⟨hlog, hstep⟩)
    exact ⟨_, hlog, hstep⟩
  · rintro ⟨a, hlog, hstep⟩
    exact .cons hlog hstep

/-- **Simulation between objects.**  What `O` allows, `P` allows. -/
theorem Legal.simulate {β : Type*} {P : Object β ε} {R : α → β → Prop} (hinit : R O.init P.init)
    (hstep : ∀ a b e a', R a b → O.step a e a' → ∃ b', P.step b e b' ∧ R a' b')
    {log : List ε} {a : α} (h : O.Legal log a) : ∃ b, P.Legal log b ∧ R a b := by
  induction h with
  | nil => exact ⟨_, .nil, hinit⟩
  | cons _ he ih =>
      obtain ⟨b, hb, hR⟩ := ih
      obtain ⟨b', hb', hR'⟩ := hstep _ _ _ _ hR he
      exact ⟨b', .cons hb hb', hR'⟩

/-- The object with another initial value. -/
def startingAt (O : Object α ε) (a : α) : Object α ε := { O with init := a }

theorem Legal.append {log evs : List ε} {a b : α} (h : O.Legal log a)
    (hevs : (O.startingAt a).Legal evs b) : O.Legal (evs ++ log) b := by
  induction hevs with
  | nil => exact h
  | cons _ hstep ih => exact .cons ih hstep

end Object

namespace Machine

variable {σ ℓ α ε : Type*} {M : Machine σ ℓ} {ok : σ → ℓ → Prop} {O : Object α ε}

/-- **Forward simulation.**  `R` relates the states of the machine to the
values of the object. -/
theorem Reach.legal {L : σ → List ε} {R : σ → α → Prop}
    (hinit : ∀ s, M.init s → L s = [] ∧ R s O.init)
    (hstep : ∀ s l t a, R s a → ok s l → M.step s l = some t →
      (L t = L s ∧ R t a) ∨ ∃ e b, L t = e :: L s ∧ O.step a e b ∧ R t b)
    {s : σ} (h : M.Reach ok s) : ∃ a, O.Legal (L s) a ∧ R s a := by
  induction h with
  | init h0 =>
      obtain ⟨hlog, hR⟩ := hinit _ h0
      rw [hlog]
      exact ⟨_, .nil, hR⟩
  | step _ hok hs ih =>
      obtain ⟨a, hlegal, hR⟩ := ih
      rcases hstep _ _ _ _ hR hok hs with ⟨hlog, hR'⟩ | ⟨e, b, hlog, he, hR'⟩
      · rw [hlog]
        exact ⟨a, hlegal, hR'⟩
      · rw [hlog]
        exact ⟨b, .cons hlegal he, hR'⟩

/-- **Forward simulation from any state.** -/
theorem Run.legal {L : σ → List ε} {R : σ → α → Prop}
    (hstep : ∀ s l t a, R s a → ok s l → M.step s l = some t →
      (L t = L s ∧ R t a) ∨ ∃ e b, L t = e :: L s ∧ O.step a e b ∧ R t b)
    {s t : σ} (h : M.Run ok s t) {a : α} (hs : R s a) :
    ∃ evs b, L t = evs ++ L s ∧ (O.startingAt a).Legal evs b ∧ R t b := by
  induction h with
  | refl => exact ⟨[], a, rfl, .nil, hs⟩
  | tail _ hok hst ih =>
      obtain ⟨evs, b, hlog, hlegal, hR⟩ := ih
      rcases hstep _ _ _ _ hR hok hst with ⟨hsame, hR'⟩ | ⟨e, c, hnew, he, hR'⟩
      · exact ⟨evs, b, hsame.trans hlog, hlegal, hR'⟩
      · refine ⟨e :: evs, c, ?_, .cons hlegal he, hR'⟩
        rw [hnew, hlog]
        rfl

end Machine

end Alterstack.Lib
