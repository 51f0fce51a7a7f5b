/-
  Alterstack.Lib.Machine — interleaving machines.

  A machine is a set of initial states and a partial, deterministic step: one
  label is one atomic step of one party, and everything the party or its
  environment may choose is part of the label.  A run is a sequence of enabled
  labels.  `Reach ok` is reachability by the runs all of whose steps meet the
  side condition `ok` (on the state before the step and its label), so that
  "in every run whose steps all meet the condition" is a statement about
  `Reach ok`; plain reachability is the case without a condition.

  Main results:
    * `Reach.invariant` — what holds initially and is kept by every step that
      meets the condition holds in every state such runs reach;
    * `Run.preserves` — the same from an arbitrary state;
    * `reach_of_replay`, `reach_of_replayOk` — a replayed list of labels is a
      run;
    * `withHistory` — the machine with a variable that records what its runs
      did;
    * `Reach.simulates` — the forward simulation rule;
    * `eventually_of_measure` — the liveness rule for infinite executions: a
      measure that never grows and cannot rest forever;
    * `exists_execution_of_replayOk` — a replayed list of labels, continued by
      an idle one forever.
-/
import Mathlib.Data.Nat.Notation
import Mathlib.Logic.Basic

namespace Alterstack.Lib

/-- Initial states and one partial step for each label. -/
structure Machine (σ ℓ : Type*) where
  init : σ → Prop
  step : σ → ℓ → Option σ

namespace Machine

variable {σ ℓ : Type*} (M : Machine σ ℓ)

/-! ## §1. Runs and reachability under a side condition. -/

/-- A finite run from one state to another, every step meeting `ok`. -/
inductive Run (ok : σ → ℓ → Prop) : σ → σ → Prop
  | refl (s : σ) : Run ok s s
  | tail {s t u : σ} {l : ℓ} : Run ok s t → ok t l → M.step t l = some u → Run ok s u

/-- The states reached from an initial state by steps that all meet `ok`. -/
inductive Reach (ok : σ → ℓ → Prop) : σ → Prop
  | init {s : σ} : M.init s → Reach ok s
  | step {s t : σ} {l : ℓ} : Reach ok s → ok s l → M.step s l = some t → Reach ok t

/-- The side condition that every step meets. -/
def anyStep : σ → ℓ → Prop := fun _ _ => True

instance (s : σ) (l : ℓ) : Decidable (anyStep s l) := .isTrue trivial

/-- Reachability without a side condition. -/
abbrev Reachable (s : σ) : Prop := M.Reach anyStep s

variable {M} {ok : σ → ℓ → Prop}

/-- **The invariant rule.** -/
theorem Reach.invariant {I : σ → Prop} (hinit : ∀ s, M.init s → I s)
    (hstep : ∀ s l t, I s → ok s l → M.step s l = some t → I t)
    {s : σ} (h : M.Reach ok s) : I s := by
  induction h with
  | init h0 => exact hinit _ h0
  | step _ hok hs ih => exact hstep _ _ _ ih hok hs

theorem Reach.run {s t : σ} (hs : M.Reach ok s) (h : M.Run ok s t) : M.Reach ok t := by
  induction h with
  | refl => exact hs
  | tail _ hok hstep ih => exact .step ih hok hstep

theorem Run.trans {s t u : σ} (h : M.Run ok s t) (h' : M.Run ok t u) : M.Run ok s u := by
  induction h' with
  | refl => exact h
  | tail _ hok hstep ih => exact .tail ih hok hstep

theorem Run.imp {ok' : σ → ℓ → Prop} (hok : ∀ s l, ok s l → ok' s l) {s t : σ}
    (h : M.Run ok s t) : M.Run ok' s t := by
  induction h with
  | refl => exact .refl _
  | tail _ hl hstep ih => exact .tail ih (hok _ _ hl) hstep

/-- What every step of a run keeps, the run keeps. -/
theorem Run.preserves {I : σ → Prop}
    (hstep : ∀ s l t, I s → ok s l → M.step s l = some t → I t)
    {s t : σ} (h : M.Run ok s t) (hs : I s) : I t := by
  induction h with
  | refl => exact hs
  | tail _ hok hstep' ih => exact hstep _ _ _ ih hok hstep'

/-! ## §2. Replaying a list of labels. -/

variable (M) in
/-- Execute a list of labels; `none` when one of them is not enabled. -/
def replay : σ → List ℓ → Option σ
  | s, [] => some s
  | s, l :: ls => (M.step s l).bind (fun t => replay t ls)

theorem replay_append (s : σ) (ls ls' : List ℓ) :
    M.replay s (ls ++ ls') = (M.replay s ls).bind (fun t => M.replay t ls') := by
  induction ls generalizing s with
  | nil => rfl
  | cons l ls ih =>
      simp only [List.cons_append, replay]
      cases M.step s l with
      | none => rfl
      | some t => exact ih t

variable (M) in
/-- Execute a list of labels, checking the side condition before each step. -/
def replayOk (ok : σ → ℓ → Prop) [∀ s l, Decidable (ok s l)] : σ → List ℓ → Option σ
  | s, [] => some s
  | s, l :: ls => if ok s l then (M.step s l).bind (fun t => replayOk ok t ls) else none

theorem reach_of_replay : ∀ (ls : List ℓ) {s t : σ},
    M.Reachable s → M.replay s ls = some t → M.Reachable t
  | [], s, t, hs, h => by
      simp only [replay, Option.some.injEq] at h
      exact h ▸ hs
  | l :: ls, s, t, hs, h => by
      obtain ⟨u, hu, ht⟩ := Option.bind_eq_some_iff.mp h
      exact reach_of_replay ls (.step hs trivial hu) ht

theorem reach_of_replayOk [∀ s l, Decidable (ok s l)] : ∀ (ls : List ℓ) {s t : σ},
    M.Reach ok s → M.replayOk ok s ls = some t → M.Reach ok t
  | [], s, t, hs, h => by
      simp only [replayOk, Option.some.injEq] at h
      exact h ▸ hs
  | l :: ls, s, t, hs, h => by
      simp only [replayOk] at h
      split at h
      next hok =>
        obtain ⟨u, hu, ht⟩ := Option.bind_eq_some_iff.mp h
        exact reach_of_replayOk ls (.step hs hok hu) ht
      next => cases h

/-- A replay that checks the condition is a run. -/
theorem run_of_replayOk [∀ s l, Decidable (ok s l)] : ∀ (ls : List ℓ) {s t : σ},
    M.replayOk ok s ls = some t → M.Run ok s t
  | [], s, t, h => by
      simp only [replayOk, Option.some.injEq] at h
      exact h ▸ .refl s
  | l :: ls, s, t, h => by
      simp only [replayOk] at h
      split at h
      next hok =>
        obtain ⟨u, hu, ht⟩ := Option.bind_eq_some_iff.mp h
        exact Run.trans (.tail (.refl s) hok hu) (run_of_replayOk ls ht)
      next => cases h

/-- A replayed list of labels that meet the condition wherever they occur. -/
theorem run_of_replay : ∀ (ls : List ℓ) {s t : σ}, (∀ l ∈ ls, ∀ u, ok u l) →
    M.replay s ls = some t → M.Run ok s t
  | [], s, t, _, h => by
      simp only [replay, Option.some.injEq] at h
      exact h ▸ .refl s
  | l :: ls, s, t, hok, h => by
      obtain ⟨u, hu, ht⟩ := Option.bind_eq_some_iff.mp h
      have hrest := run_of_replay ls (fun l' hl' => hok l' (.tail _ hl')) ht
      exact Run.trans (.tail (.refl s) (hok l (.head _) s) hu) hrest

variable (M) in
/-- A replay that ends in a state with a decidable property reaches such a state. -/
theorem exists_reach_of_replay (ls : List ℓ) {s : σ} (p : σ → Bool) (hs : M.init s)
    (h : (M.replay s ls).map p = some true) : ∃ t, M.Reachable t ∧ p t = true := by
  obtain ⟨t, ht, hp⟩ := Option.map_eq_some_iff.mp h
  exact ⟨t, reach_of_replay ls (.init hs) ht, hp⟩

variable (M) in
theorem exists_reach_of_replayOk (ok : σ → ℓ → Prop) [∀ s l, Decidable (ok s l)] (ls : List ℓ)
    {s : σ} (p : σ → Bool) (hs : M.init s) (h : (M.replayOk ok s ls).map p = some true) :
    ∃ t, M.Reach ok t ∧ p t = true := by
  obtain ⟨t, ht, hp⟩ := Option.map_eq_some_iff.mp h
  exact ⟨t, reach_of_replayOk ls (.init hs) ht, hp⟩

/-! ## §3. History variables. -/

variable {γ : Type*}

/-- The machine with a variable that no step reads: `start` is its value at
first, `record` what a step makes of it. -/
def withHistory (M : Machine σ ℓ) (start : σ → γ) (record : σ → ℓ → γ → γ) :
    Machine (σ × γ) ℓ where
  init := fun s => M.init s.1 ∧ s.2 = start s.1
  step := fun s l => (M.step s.1 l).map (fun t => (t, record s.1 l s.2))

variable {start : σ → γ} {record : σ → ℓ → γ → γ}

theorem withHistory_step {s t : σ × γ} {l : ℓ} :
    (M.withHistory start record).step s l = some t ↔
      M.step s.1 l = some t.1 ∧ record s.1 l s.2 = t.2 := by
  constructor
  · intro h
    obtain ⟨u, hu, rfl⟩ := Option.map_eq_some_iff.mp h
    exact ⟨hu, rfl⟩
  · intro ⟨hstep, hrecord⟩
    exact Option.map_eq_some_iff.mpr ⟨t.1, hstep, Prod.ext rfl hrecord⟩

/-! ## §4. Simulation. -/

/-- **The simulation rule.**  When every step that meets the condition is
matched by a run of the other machine, then so is every run. -/
theorem Reach.simulates {τ κ : Type*} {N : Machine τ κ} {ok' : τ → κ → Prop} {R : σ → τ → Prop}
    (hinit : ∀ s, M.init s → ∃ t, N.init t ∧ R s t)
    (hstep : ∀ s l s' t, R s t → ok s l → M.step s l = some s' → ∃ t', N.Run ok' t t' ∧ R s' t')
    {s : σ} (h : M.Reach ok s) : ∃ t, N.Reach ok' t ∧ R s t := by
  induction h with
  | init h0 =>
      obtain ⟨t, ht, hR⟩ := hinit _ h0
      exact ⟨t, .init ht, hR⟩
  | step _ hok hs ih =>
      obtain ⟨t, ht, hR⟩ := ih
      obtain ⟨t', hrun, hR'⟩ := hstep _ _ _ _ hR hok hs
      exact ⟨t', ht.run hrun, hR'⟩

theorem Run.single {s t : σ} {l : ℓ} (hok : ok s l) (h : M.step s l = some t) : M.Run ok s t :=
  .tail (.refl s) hok h

/-! ## §5. Infinite executions. -/

/-- An infinite execution, every step meeting `ok`: the states in order and the
label of each step. -/
structure Execution (M : Machine σ ℓ) (ok : σ → ℓ → Prop) (states : ℕ → σ) (labels : ℕ → ℓ) :
    Prop where
  init : M.init (states 0)
  ok : ∀ n, ok (states n) (labels n)
  step : ∀ n, M.step (states n) (labels n) = some (states (n + 1))

variable {states : ℕ → σ} {labels : ℕ → ℓ}

theorem Execution.reach (h : M.Execution ok states labels) (n : ℕ) : M.Reach ok (states n) := by
  induction n with
  | zero => exact .init h.init
  | succ n ih => exact .step ih (h.ok n) (h.step n)

/-- The labels of an execution, replayed. -/
theorem Execution.replay (h : M.Execution ok states labels) (n : ℕ) :
    M.replay (states 0) ((List.range n).map labels) = some (states n) := by
  induction n with
  | zero => rfl
  | succ n ih =>
      rw [List.range_succ, List.map_append, replay_append, ih]
      simp [Machine.replay, h.step n]

variable (M) in
/-- Weak fairness to a party: if from some time on the party always has an
enabled step, then it takes one. -/
def WeaklyFair (party : ℓ → Prop) (states : ℕ → σ) (labels : ℕ → ℓ) : Prop :=
  ∀ n, (∀ m, n ≤ m → ∃ l, party l ∧ M.step (states m) l ≠ none) → ∃ m, n ≤ m ∧ party (labels m)

/-- A party that never has a step left is treated fairly. -/
theorem weaklyFair_of_disabled {party : ℓ → Prop}
    (h : ∀ n, ∃ m, n ≤ m ∧ ∀ l, party l → M.step (states m) l = none) :
    M.WeaklyFair party states labels := by
  intro n henabled
  obtain ⟨m, hnm, hdisabled⟩ := h n
  obtain ⟨l, hl, hstep⟩ := henabled m hnm
  exact absurd (hdisabled l hl) hstep

/-- What holds at some time and is kept from then on holds at all later times. -/
theorem stays_of_succ {P : ℕ → Prop} {n : ℕ} (hn : P n) (hsucc : ∀ k, n ≤ k → P k → P (k + 1))
    {m : ℕ} (hnm : n ≤ m) : P m := by
  induction hnm with
  | refl => exact hn
  | step hle ih => exact hsucc _ hle ih

/-- **The liveness rule.**  While `P` has not come true the measure `μ` never
grows, and it cannot rest forever. -/
theorem eventually_of_measure {P : ℕ → Prop} {μ : ℕ → ℕ}
    (hstep : ∀ n, ¬ P n → μ (n + 1) ≤ μ n)
    (hrest : ∀ n, ¬ ∀ m, n ≤ m → ¬ P m ∧ μ m = μ n) : ∃ n, P n := by
  have key : ∀ k n, μ n = k → ∃ n, P n := by
    intro k
    induction k using Nat.strongRecOn with
    | ind k ih =>
        rintro n rfl
        refine Classical.byContradiction fun hnever => ?_
        have hnot : ∀ m, ¬ P m := fun m hm => hnever ⟨m, hm⟩
        -- a smaller value would lead to `P` by induction
        have hle : ∀ m, μ n ≤ μ m := fun m =>
          Nat.le_of_not_lt fun hlt => hnever (ih (μ m) hlt m rfl)
        refine hrest n fun m hnm => ⟨hnot m, ?_⟩
        have hge : μ m ≤ μ n :=
          stays_of_succ (P := fun m => μ m ≤ μ n) (Nat.le_refl _)
            (fun k _ hk => Nat.le_trans (hstep k (hnot k)) hk) hnm
        exact Nat.le_antisymm hge (hle m)
  exact key _ 0 rfl

/-- A replayed list of labels, and an idle label ever after. -/
theorem exists_execution_of_replayOk [∀ s l, Decidable (ok s l)] (ls : List ℓ) (idle : ℓ)
    {s t : σ} (hs : M.init s) (h : M.replayOk ok s ls = some t) (hok : ok t idle)
    (hidle : M.step t idle = some t) :
    ∃ states, M.Execution ok states (fun n => ls.getD n idle) ∧ states 0 = s ∧
      ∀ n, ls.length ≤ n → states n = t := by
  suffices hall : ∃ states : ℕ → σ, states 0 = s ∧ (∀ n, ok (states n) (ls.getD n idle) ∧
      M.step (states n) (ls.getD n idle) = some (states (n + 1))) ∧
      ∀ n, ls.length ≤ n → states n = t by
    obtain ⟨states, h0, hsteps, hend⟩ := hall
    exact ⟨states, ⟨h0 ▸ hs, fun n => (hsteps n).1, fun n => (hsteps n).2⟩, h0, hend⟩
  clear hs
  induction ls generalizing s with
  | nil =>
      injection h with h
      subst h
      exact ⟨fun _ => s, rfl, fun n => ⟨hok, hidle⟩, fun _ _ => rfl⟩
  | cons l ls ih =>
      simp only [replayOk] at h
      split at h
      next hl =>
        obtain ⟨u, hu, ht⟩ := Option.bind_eq_some_iff.mp h
        obtain ⟨states, h0, hsteps, hend⟩ := ih ht
        refine ⟨fun n => n.casesOn s states, rfl, fun n => ?_, fun n hn => ?_⟩
        · cases n with
          | zero =>
              refine ⟨hl, ?_⟩
              show M.step s l = some (states 0)
              rw [h0]
              exact hu
          | succ n => exact hsteps n
        · cases n with
          | zero => cases hn
          | succ n => exact hend n (Nat.le_of_succ_le_succ hn)
      next => cases h

end Machine

end Alterstack.Lib
