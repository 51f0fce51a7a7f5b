/-
  Alterstack.Lib.Segment — intrusive singly linked lists.

  Nodes carry one link each, `link : ν → Option ν`.  `Seg link h l e` says that
  following the links from `h` visits exactly the nodes `l` and arrives at
  `e`; with `e = none` it is a whole null-terminated list.  `Layout` is the
  ownership side: a finite duplicate-free list of nodes for every holder, no
  node with two holders.  Its operations are the only ways nodes change hands,
  and each of them keeps both properties by construction.

  Main results:
    * `Seg.frame` — writing a link outside the list leaves it alone;
    * `Seg.append`, `Seg.push`, `Seg.relink_last` — the three ways lists are
      put together;
    * `Layout.rearrange` — some holders exchange their nodes in any way.
-/
import Mathlib.Data.List.Perm.Basic
import Mathlib.Data.List.Nodup
import Mathlib.Data.List.Pairwise
import Mathlib.Logic.Function.Basic

namespace Alterstack.Lib

/-! ## §1. List segments. -/

section Segments

variable {ν : Type*}

/-- Following `link` from `h` visits exactly `l` and arrives at `e`. -/
def Seg (link : ν → Option ν) : Option ν → List ν → Option ν → Prop
  | h, [], e => h = e
  | h, x :: l, e => h = some x ∧ Seg link (link x) l e

variable {link : ν → Option ν} {h e m : Option ν} {l l' : List ν} {x : ν}

@[simp] theorem seg_nil : Seg link h [] e ↔ h = e := Iff.rfl

@[simp] theorem seg_cons : Seg link h (x :: l) e ↔ h = some x ∧ Seg link (link x) l e := Iff.rfl

theorem seg_singleton : Seg link (some x) [x] e ↔ link x = e := by simp

/-- Two memories that agree on the visited nodes have the same segment. -/
theorem Seg.congr {link' : ν → Option ν} (hs : Seg link h l e) (hl : ∀ x ∈ l, link' x = link x) :
    Seg link' h l e := by
  induction l generalizing h with
  | nil => exact hs
  | cons x l ih =>
      refine ⟨hs.1, ?_⟩
      rw [hl x (by simp)]
      exact ih hs.2 (fun y hy => hl y (by simp [hy]))

/-- **Frame.**  A write to the link of a node outside the segment. -/
theorem Seg.frame [DecidableEq ν] (hs : Seg link h l e) (hx : x ∉ l) (v : Option ν) :
    Seg (Function.update link x v) h l e := by
  refine hs.congr (fun y hy => ?_)
  have : y ≠ x := fun hyx => hx (hyx ▸ hy)
  simp [this]

theorem Seg.append (hs : Seg link h l m) (hs' : Seg link m l' e) : Seg link h (l ++ l') e := by
  induction l generalizing h with
  | nil => exact (seg_nil.mp hs) ▸ hs'
  | cons x l ih => exact ⟨hs.1, ih hs.2⟩

theorem Seg.split (hs : Seg link h (l ++ l') e) : ∃ m, Seg link h l m ∧ Seg link m l' e := by
  induction l generalizing h with
  | nil => exact ⟨h, rfl, hs⟩
  | cons x l ih =>
      obtain ⟨m, hm, hm'⟩ := ih hs.2
      exact ⟨m, ⟨hs.1, hm⟩, hm'⟩

/-- A null-terminated list that starts at null is empty. -/
theorem Seg.eq_nil (hs : Seg link none l e) : l = [] ∧ e = none := by
  cases l with
  | nil => exact ⟨rfl, hs.symm⟩
  | cons x l => exact absurd hs.1 (by simp)

/-- A null-terminated list that starts at a node has it as its head. -/
theorem Seg.eq_cons (hs : Seg link (some x) l none) :
    ∃ l', l = x :: l' ∧ Seg link (link x) l' none := by
  cases l with
  | nil => exact absurd hs (by simp)
  | cons y l =>
      obtain ⟨hy, htail⟩ := hs
      injection hy with hy
      subst hy
      exact ⟨l, rfl, htail⟩

/-- The memory determines a null-terminated list. -/
theorem Seg.unique (hs : Seg link h l none) (hs' : Seg link h l' none) : l' = l := by
  induction l generalizing h l' with
  | nil =>
      obtain rfl : h = none := hs
      exact hs'.eq_nil.1
  | cons x l ih =>
      obtain ⟨rfl, hs⟩ := hs
      obtain ⟨k, rfl, hk⟩ := hs'.eq_cons
      rw [ih hs hk]

/-- Linking a node outside the list in front of it. -/
theorem Seg.push [DecidableEq ν] (hs : Seg link h l e) (hx : x ∉ l) :
    Seg (Function.update link x h) (some x) (x :: l) e :=
  ⟨rfl, by simpa using hs.frame hx h⟩

/-- Redirecting the link of the last node. -/
theorem Seg.relink_last [DecidableEq ν] (hs : Seg link h (l ++ [x]) m) (hx : x ∉ l) :
    Seg (Function.update link x e) h (l ++ [x]) e := by
  obtain ⟨k, hk, hlast⟩ := hs.split
  refine (hk.frame hx e).append ?_
  exact ⟨hlast.1, by simp⟩

end Segments

/-! ## §2. Who holds which nodes. -/

/-- The nodes of every holder, in order: no node twice, none with two holders. -/
structure Layout (π ν : Type*) where
  at_ : π → List ν
  nodup : ∀ p, (at_ p).Nodup
  excl : ∀ {p q x}, x ∈ at_ p → x ∈ at_ q → p = q

namespace Layout

variable {π ν : Type*} [DecidableEq π]

omit [DecidableEq π] in
theorem not_mem_of_ne (L : Layout π ν) {p q : π} {x : ν} (hx : x ∈ L.at_ p) (hpq : q ≠ p) :
    x ∉ L.at_ q := fun hq => hpq (L.excl hq hx)

/-- Nobody holds anything. -/
def empty : Layout π ν where
  at_ := fun _ => []
  nodup := by simp
  excl := by simp

/-- Holder `p` receives a node that nobody holds, in front. -/
def receive (L : Layout π ν) (p : π) (x : ν) (hx : ∀ q, x ∉ L.at_ q) : Layout π ν where
  at_ := Function.update L.at_ p (x :: L.at_ p)
  nodup := by
    intro q
    by_cases hq : q = p
    · subst hq; simpa using ⟨hx q, L.nodup q⟩
    · simpa [hq] using L.nodup q
  excl := by
    have key : ∀ q y, y ∈ Function.update L.at_ p (x :: L.at_ p) q →
        (y = x ∧ q = p) ∨ y ∈ L.at_ q := by
      intro q y hy
      by_cases hq : q = p
      · subst hq; simpa using hy
      · exact .inr (by simpa [hq] using hy)
    intro q r y hq hr
    rcases key q y hq with ⟨rfl, rfl⟩ | hq' <;> rcases key r y hr with ⟨h, rfl⟩ | hr'
    · rfl
    · exact absurd hr' (hx r)
    · exact absurd (h ▸ hq') (hx q)
    · exact L.excl hq' hr'

/-- Holder `p` keeps only a part of its nodes. -/
def release (L : Layout π ν) (p : π) (l : List ν) (hl : l.Sublist (L.at_ p)) : Layout π ν where
  at_ := Function.update L.at_ p l
  nodup := by
    intro q
    by_cases hq : q = p
    · subst hq; simpa using (L.nodup q).sublist hl
    · simpa [hq] using L.nodup q
  excl := by
    have key : ∀ q y, y ∈ Function.update L.at_ p l q → y ∈ L.at_ q := by
      intro q y hy
      by_cases hq : q = p
      · subst hq; exact hl.subset (by simpa using hy)
      · simpa [hq] using hy
    exact fun {q r x} hq hr => L.excl (key q x hq) (key r x hr)

omit [DecidableEq π] in
theorem flatMap_nodup (L : Layout π ν) {ps : List π} (hps : ps.Nodup) :
    (ps.flatMap L.at_).Nodup :=
  List.nodup_flatMap.mpr ⟨fun p _ => L.nodup p,
    hps.imp (fun {_ _} hpq _ hp hq => hpq (L.excl hp hq))⟩

/-- The holders `ps` rearrange their nodes among themselves. -/
def rearrange (L : Layout π ν) (ps : List π) (hps : ps.Nodup) (at' : π → List ν)
    (hout : ∀ p, p ∉ ps → at' p = L.at_ p)
    (hperm : (ps.flatMap at').Perm (ps.flatMap L.at_)) : Layout π ν where
  at_ := at'
  nodup := by
    intro p
    by_cases hp : p ∈ ps
    · exact (List.nodup_flatMap.mp (hperm.nodup_iff.mpr (L.flatMap_nodup hps))).1 p hp
    · rw [hout p hp]
      exact L.nodup p
  excl := by
    have hnodup := hperm.nodup_iff.mpr (L.flatMap_nodup hps)
    -- a node of a holder outside `ps` is not among those rearranged
    have hmixed : ∀ p q x, p ∈ ps → q ∉ ps → x ∈ at' p → x ∈ at' q → False := by
      intro p q x hp hq hxp hxq
      have : x ∈ ps.flatMap L.at_ := hperm.subset (List.mem_flatMap.mpr ⟨p, hp, hxp⟩)
      obtain ⟨r, hr, hxr⟩ := List.mem_flatMap.mp this
      rw [hout q hq] at hxq
      exact hq (L.excl hxr hxq ▸ hr)
    intro p q x hxp hxq
    by_cases hp : p ∈ ps <;> by_cases hq : q ∈ ps
    · by_contra hpq
      have : Std.Symm (Function.onFun List.Disjoint at') := ⟨fun _ _ h _ hb ha => h ha hb⟩
      exact (List.nodup_flatMap.mp hnodup).2.forall hp hq hpq hxp hxq
    · exact (hmixed p q x hp hq hxp hxq).elim
    · exact (hmixed q p x hq hp hxq hxp).elim
    · rw [hout p hp] at hxp
      rw [hout q hq] at hxq
      exact L.excl hxp hxq

variable {L : Layout π ν} {p q : π}

omit [DecidableEq π] in
@[simp] theorem empty_at (p : π) : (empty : Layout π ν).at_ p = [] := rfl

@[simp] theorem receive_at {x : ν} (hx : ∀ q, x ∉ L.at_ q) :
    (L.receive p x hx).at_ = Function.update L.at_ p (x :: L.at_ p) := rfl

@[simp] theorem release_at {l : List ν} (hl : l.Sublist (L.at_ p)) :
    (L.release p l hl).at_ = Function.update L.at_ p l := rfl

@[simp] theorem rearrange_at {ps : List π} (hps : ps.Nodup) {at' : π → List ν}
    (hout : ∀ p, p ∉ ps → at' p = L.at_ p)
    (hperm : (ps.flatMap at').Perm (ps.flatMap L.at_)) :
    (L.rearrange ps hps at' hout hperm).at_ = at' := rfl

/-- A rearrangement neither adds nor loses a node. -/
theorem rearrange_mem {ps : List π} (hps : ps.Nodup) {at' : π → List ν}
    (hout : ∀ p, p ∉ ps → at' p = L.at_ p)
    (hperm : (ps.flatMap at').Perm (ps.flatMap L.at_)) (x : ν) :
    (∃ p, x ∈ (L.rearrange ps hps at' hout hperm).at_ p) ↔ ∃ p, x ∈ L.at_ p := by
  have hmem : (∃ p ∈ ps, x ∈ at' p) ↔ ∃ p ∈ ps, x ∈ L.at_ p := by
    simpa [List.mem_flatMap] using hperm.mem_iff (a := x)
  rw [rearrange_at]
  constructor
  · rintro ⟨p, hp⟩
    by_cases hps' : p ∈ ps
    · obtain ⟨q, _, hq⟩ := hmem.mp ⟨p, hps', hp⟩
      exact ⟨q, hq⟩
    · exact ⟨p, hout p hps' ▸ hp⟩
  · rintro ⟨p, hp⟩
    by_cases hps' : p ∈ ps
    · obtain ⟨q, _, hq⟩ := hmem.mpr ⟨p, hps', hp⟩
      exact ⟨q, hq⟩
    · exact ⟨p, (hout p hps').symm ▸ hp⟩

end Layout

end Alterstack.Lib
