/-
  Alterstack.Lib.Counter — an atomic counter of the parties inside a section.

  Every party adds 1 when it enters the section and subtracts 1 when it leaves;
  the counter has 32 bits and wraps.  `Counts k p` says that `k` is the number
  of parties inside, modulo `2^32`.

  Main results:
    * `Counts.enter`, `Counts.leave` — `fetch_add` on the way in, `fetch_sub` on
      the way out;
    * `Counts.eq_zero_iff` — below `2^32` parties the counter is zero exactly
      when nobody is inside.
-/
import Mathlib.Algebra.Group.Nat.Defs
import Mathlib.Data.Fintype.Basic
import Mathlib.Data.Fintype.Card
import Mathlib.Logic.Function.Basic

namespace Alterstack.Lib

variable {ι : Type*} [Fintype ι]

/-- The parties inside. -/
def inside (p : ι → Bool) : Finset ι := Finset.univ.filter (fun i => p i = true)

/-- The counter `k` counts the parties inside, modulo `2^32`. -/
def Counts (k : UInt32) (p : ι → Bool) : Prop := k = UInt32.ofNat (inside p).card

variable {k : UInt32} {p q : ι → Bool} {i : ι}

@[simp] theorem mem_inside : i ∈ inside p ↔ p i = true := by simp [inside]

theorem Counts.congr (h : Counts k p) (hpq : ∀ i, q i = p i) : Counts k q :=
  (funext hpq : q = p) ▸ h

theorem counts_zero (h : ∀ i, p i = false) : Counts 0 p := by
  have hempty : inside p = ∅ := by
    ext i
    simp [h i]
  simp [Counts, hempty]

/-- `fetch_add(1)` of a party that enters. -/
theorem Counts.enter [DecidableEq ι] (h : Counts k p) (hi : p i = false) (hqi : q i = true)
    (hq : ∀ j, j ≠ i → q j = p j) : Counts (k + 1) q := by
  have hinside : inside q = insert i (inside p) := by
    ext j
    by_cases hj : j = i
    · subst hj
      simp [hqi]
    · simp [hj, hq j hj]
  have hnot : i ∉ inside p := by simp [hi]
  unfold Counts at h ⊢
  rw [hinside, Finset.card_insert_of_notMem hnot, UInt32.ofNat_add, h]
  rfl

/-- `fetch_sub(1)` of a party that leaves. -/
theorem Counts.leave [DecidableEq ι] (h : Counts k p) (hi : p i = true) (hqi : q i = false)
    (hq : ∀ j, j ≠ i → q j = p j) : Counts (k - 1) q := by
  have hinside : inside q = (inside p).erase i := by
    ext j
    by_cases hj : j = i
    · subst hj
      simp [hqi]
    · simp [hj, hq j hj]
  have hmem : i ∈ inside p := by simp [hi]
  unfold Counts at h ⊢
  rw [hinside, h, ← Finset.card_erase_add_one hmem, UInt32.ofNat_add]
  exact UInt32.add_sub_cancel _ _

theorem Counts.eq_zero (h : Counts k p) (hp : ∀ i, p i = false) : k = 0 := by
  have hempty : inside p = ∅ := by
    ext i
    simp [hp i]
  rw [h, hempty]
  rfl

/-- Below `2^32` parties the counter is zero exactly when nobody is inside. -/
theorem Counts.eq_zero_iff (h : Counts k p) (hcard : Fintype.card ι < 2 ^ 32) :
    k = 0 ↔ ∀ i, p i = false := by
  constructor
  · intro h0 i
    have hle : (inside p).card ≤ Fintype.card ι := Finset.card_le_univ _
    have hmod : (inside p).card % 2 ^ 32 = 0 := by
      have := congrArg UInt32.toNat (h.symm.trans h0)
      simpa using this
    have hempty : inside p = ∅ := Finset.card_eq_zero.mp (by omega)
    have hnot : i ∉ inside p := by simp [hempty]
    simpa using hnot
  · exact h.eq_zero

end Alterstack.Lib
