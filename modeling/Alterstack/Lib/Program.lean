/-
  Alterstack.Lib.Program — functions run alone, one step at a time.

  A program is given by the steps of its control points; a step leads to
  another point or returns.  The flag of a step is the licence of a weak
  compare-exchange to fail: with it, a step does what it does without it, or
  fails and tries again from the same point.  `Returns Q s p` is total
  correctness of the rest of a call: alone, whatever the flags, it can only end
  as `Q` says, and without failures it does end.

  Main results:
    * `Returns.intro`, `Returns.inner` — the rules to prove it:
      a step, consequence, and a call inside a call;
    * `Returns.step_goto`, `Returns.step_ret` — every step keeps it, so that it
      can be an invariant of a machine that runs the program;
    * `Returns.replay` — such a machine gets to the end of the call.
-/
import Alterstack.Lib.Machine

namespace Alterstack.Lib

/-- One step of every control point; `.inl` is the next point, `.inr` what the
call returns. -/
structure Program (σ π ρ : Type*) where
  step : Bool → σ → π → σ × (π ⊕ ρ)

namespace Program

variable {σ π ρ : Type*} {P : Program σ π ρ} {Q Q' : σ → ρ → Prop} {s t : σ} {p q : π} {v : ρ}

/-- A step that may fail does nothing when it does. -/
def Retries (P : Program σ π ρ) (s : σ) (p : π) : Prop :=
  P.step true s p = P.step false s p ∨ P.step true s p = (s, .inl p)

/-- The rest of the call, from the point `p`, returns as `Q` says. -/
inductive Returns (P : Program σ π ρ) (Q : σ → ρ → Prop) : σ → π → Prop
  | ret {s t : σ} {p : π} {v : ρ} : P.Retries s p → P.step false s p = (t, .inr v) → Q t v →
      Returns P Q s p
  | goto {s t : σ} {p q : π} : P.Retries s p → P.step false s p = (t, .inl q) →
      Returns P Q t q → Returns P Q s p

/-- The same after a step. -/
def Continues (P : Program σ π ρ) (Q : σ → ρ → Prop) (s : σ) : π ⊕ ρ → Prop
  | .inl p => P.Returns Q s p
  | .inr v => Q s v

theorem Returns.intro (hretry : P.Retries s p)
    (h : P.Continues Q (P.step false s p).1 (P.step false s p).2) : P.Returns Q s p := by
  cases hstep : P.step false s p with
  | mk t next =>
      rw [hstep] at h
      cases next with
      | inl q => exact .goto hretry hstep h
      | inr v => exact .ret hretry hstep h

theorem Returns.step_goto (h : P.Returns Q s p) (flag : Bool)
    (hs : P.step flag s p = (t, .inl q)) : P.Returns Q t q := by
  cases h with
  | ret hretry hstep hv =>
      cases flag with
      | false =>
          rw [hstep] at hs
          cases hs
      | true =>
          rcases hretry with heq | heq <;> rw [heq] at hs
          · rw [hstep] at hs
            cases hs
          · cases hs
            exact .ret (.inr heq) hstep hv
  | goto hretry hstep hq =>
      cases flag with
      | false =>
          rw [hstep] at hs
          cases hs
          exact hq
      | true =>
          rcases hretry with heq | heq <;> rw [heq] at hs
          · rw [hstep] at hs
            cases hs
            exact hq
          · cases hs
            exact .goto (.inr heq) hstep hq

theorem Returns.step_ret (h : P.Returns Q s p) (flag : Bool)
    (hs : P.step flag s p = (t, .inr v)) : Q t v := by
  cases h with
  | ret hretry hstep hv =>
      cases flag with
      | false =>
          rw [hstep] at hs
          cases hs
          exact hv
      | true =>
          rcases hretry with heq | heq <;> rw [heq] at hs
          · rw [hstep] at hs
            cases hs
            exact hv
          · cases hs
  | goto hretry hstep hq =>
      cases flag with
      | false =>
          rw [hstep] at hs
          cases hs
      | true =>
          rcases hretry with heq | heq <;> rw [heq] at hs
          · rw [hstep] at hs
            cases hs
          · cases hs

/-- **A call inside a call.**  The states of the inner program are seen in the
outer one through `f`, its points through `emb`, and `k` is what the caller
does with a result. -/
theorem Returns.inner {σ' π' ρ' : Type*} {P' : Program σ' π' ρ'} {R : σ' → ρ' → Prop}
    (f : σ → σ') (emb : π → π') (k : ρ → π' ⊕ ρ')
    (hgoto : ∀ flag s t p q, P.step flag s p = (t, .inl q) →
      P'.step flag (f s) (emb p) = (f t, .inl (emb q)))
    (hret : ∀ flag s t p v, P.step flag s p = (t, .inr v) →
      P'.step flag (f s) (emb p) = (f t, k v))
    (h : P.Returns Q s p) (hk : ∀ t v, Q t v → P'.Continues R (f t) (k v)) :
    P'.Returns R (f s) (emb p) := by
  have hretries : ∀ s p, P.Retries s p → P'.Retries (f s) (emb p) := by
    rintro s p (heq | heq)
    · cases hstep : P.step false s p with
      | mk t next =>
          rw [hstep] at heq
          cases next with
          | inl q => exact .inl ((hgoto _ _ _ _ _ heq).trans (hgoto _ _ _ _ _ hstep).symm)
          | inr v => exact .inl ((hret _ _ _ _ _ heq).trans (hret _ _ _ _ _ hstep).symm)
    · exact .inr (hgoto _ _ _ _ _ heq)
  induction h with
  | ret hretry hstep hv =>
      refine .intro (hretries _ _ hretry) ?_
      rw [hret _ _ _ _ _ hstep]
      exact hk _ _ hv
  | goto hretry hstep _ ih => exact .goto (hretries _ _ hretry) (hgoto _ _ _ _ _ hstep) ih

/-- **A call ends.**  The machine performs the steps of the call by the label
`l`; `R u s p` says that in `u` the call is at `p` with memory `s`. -/
theorem Returns.replay {μ ℓ : Type*} {M : Machine μ ℓ} {l : ℓ} {R : μ → σ → π → Prop}
    {D : μ → Prop}
    (hgoto : ∀ u s p t q, R u s p → P.step false s p = (t, .inl q) →
      ∃ u', M.step u l = some u' ∧ R u' t q)
    (hret : ∀ u s p t v, R u s p → P.step false s p = (t, .inr v) →
      ∃ u', M.step u l = some u' ∧ D u')
    (h : P.Returns Q s p) {u : μ} (hu : R u s p) :
    ∃ n u', M.replay u (List.replicate n l) = some u' ∧ D u' := by
  induction h generalizing u with
  | ret _ hstep _ =>
      obtain ⟨u', hu', hdone⟩ := hret _ _ _ _ _ hu hstep
      refine ⟨1, u', ?_, hdone⟩
      rw [List.replicate_one, Machine.replay, hu']
      rfl
  | goto _ hstep _ ih =>
      obtain ⟨u', hu', hR⟩ := hgoto _ _ _ _ _ hu hstep
      obtain ⟨n, v, hv, hdone⟩ := ih hR
      refine ⟨n + 1, v, ?_, hdone⟩
      rw [List.replicate_succ, Machine.replay, hu']
      exact hv

end Program

end Alterstack.Lib
