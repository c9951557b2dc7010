import Mathlib.Data.List.Basic

/-!
# Dominance in a graph

A point `d` strictly dominates a point `p` if every path from the entry to `p` has left
`d` before it arrives.  `Along` is what dominance is for: when leaving a point and
entering a point each establish a fact that stays true, then at any point reached the
facts of all its dominators hold.

`strictlyDominates_of_closed` proves dominance in a concrete graph without looking at its
paths.
-/

universe u v

namespace LowerIrUtils

variable {α : Type u} {σ : Type v} {edge : α → α → Prop} {s : α}

/-- `p` can be reached from `s` along edges that leave the points `visited`, latest
first. -/
inductive Path (edge : α → α → Prop) (s : α) : List α → α → Prop
  | refl : Path edge s [] s
  | step {visited : List α} {p q : α} (h : Path edge s visited p) (hedge : edge p q) :
      Path edge s (p :: visited) q

/-- Every path to `p` has left `d`. -/
def StrictlyDominates (edge : α → α → Prop) (s d p : α) : Prop :=
  ∀ visited, Path edge s visited p → d ∈ visited

/-- Every path to `p` has left `d`, or `p` is `d`. -/
def Dominates (edge : α → α → Prop) (s d p : α) : Prop :=
  ∀ visited, Path edge s visited p → d ∈ p :: visited

/-! ## Certificates -/

/-- A relation that is not true of the entry, and true of a point only if it is true of
each predecessor or relates the predecessor to itself, is strict dominance. -/
theorem strictlyDominates_of_closed {D : α → α → Prop} (hentry : ∀ d, ¬ D d s)
    (hclosed : ∀ d p q, D d q → edge p q → d = p ∨ D d p) {d p : α} (h : D d p) :
    StrictlyDominates edge s d p := by
  intro visited hpath
  induction hpath with
  | refl => exact absurd h (hentry d)
  | step hpath hedge ih =>
      rcases hclosed d _ _ h hedge with rfl | hD
      · exact List.mem_cons_self
      · exact List.mem_cons_of_mem _ (ih hD)

theorem StrictlyDominates.dominates {d p : α} (h : StrictlyDominates edge s d p) :
    Dominates edge s d p :=
  fun visited hpath ↦ List.mem_cons_of_mem p (h visited hpath)

theorem Dominates.refl (p : α) : Dominates edge s p p := fun _ _ ↦ List.mem_cons_self

/-! ## What dominators have established -/

/-- In the state `t` at the point `p`, a path to `p` has been taken, the facts `Left` of
the points it has left hold, and the facts `Entered` of those it has entered. -/
def Along (edge : α → α → Prop) (s : α) (Left Entered : α → σ → Prop) (p : α) (t : σ) : Prop :=
  ∃ visited, Path edge s visited p ∧ (∀ d ∈ visited, Left d t) ∧ ∀ d ∈ p :: visited, Entered d t

namespace Along

variable {Left Entered : α → σ → Prop} {d p q : α} {t t' : σ}

theorem refl (h : Entered s t) : Along edge s Left Entered s t := by
  refine ⟨[], .refl, ?_, ?_⟩
  · intro d hd
    cases hd
  · intro d hd
    rw [List.mem_singleton.mp hd]
    exact h

/-- Take an edge: the fact of the point left and that of the point entered are new, the
others stay. -/
theorem step (h : Along edge s Left Entered p t) (hedge : edge p q) (hleft : Left p t')
    (hentered : Entered q t') (hstayLeft : ∀ d, Left d t → Left d t')
    (hstayEntered : ∀ d, Entered d t → Entered d t') : Along edge s Left Entered q t' := by
  obtain ⟨visited, hpath, hvisited, hpoints⟩ := h
  refine ⟨p :: visited, .step hpath hedge, ?_, ?_⟩
  · intro d hd
    rcases List.mem_cons.mp hd with rfl | hd
    · exact hleft
    · exact hstayLeft d (hvisited d hd)
  · intro d hd
    rcases List.mem_cons.mp hd with rfl | hd
    · exact hentered
    · exact hstayEntered d (hpoints d hd)

theorem left_of_strictlyDominates (h : Along edge s Left Entered p t)
    (hdom : StrictlyDominates edge s d p) : Left d t := by
  obtain ⟨visited, hpath, hvisited, -⟩ := h
  exact hvisited d (hdom visited hpath)

theorem entered_of_dominates (h : Along edge s Left Entered p t) (hdom : Dominates edge s d p) :
    Entered d t := by
  obtain ⟨visited, hpath, -, hpoints⟩ := h
  exact hpoints d (hdom visited hpath)

end Along

end LowerIrUtils
