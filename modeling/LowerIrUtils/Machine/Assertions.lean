import LowerIrUtils.Machine.Budget

/-!
# Inductive assertions

A run can be proved about without following it from end to end.  An assertion is made of the
states at some cuts, and from each cut the machine is followed only as far as the next cut or
an end (`Leaves`).  If the assertion holds wherever a cut is come to, every run from
a cut ends as it should (`Inductive.ends`).

The moves that are left are part of the assertion, and on the way from a cut to the next some
are used up.  So nothing more has to be shown for loops to be left, and how often
they are passed is something an assertion can say.
-/

universe u v

namespace LowerIrUtils.Machine

variable {σ : Type u} {ρ : Type v} (M : Machine σ ρ)

/-- A run with `n` moves left and `c` moves made ends as `Q` says. -/
def Ends (Q : Outcome σ ρ → Prop) (n c : Nat) (s : σ) : Prop := Q (M.runFrom n c s)

/-- The machine comes to a cut or to an end, and to a cut only by a move. -/
inductive Leaves (C : Nat → Nat → σ → Prop) (Q : Outcome σ ρ → Prop) : Nat → Nat → σ → Prop
  | done {n c s r} (hd : M.done s = some r) (h : Q ⟨s, c, some r⟩) : Leaves C Q n c s
  | out {c s} (hd : M.done s = none) (h : Q ⟨s, c, none⟩) : Leaves C Q 0 c s
  | arrive {n c s} (hd : M.done s = none) (h : C n (c + 1) (M.next s)) : Leaves C Q (n + 1) c s
  | next {n c s} (hd : M.done s = none) (h : Leaves C Q n (c + 1) (M.next s)) :
      Leaves C Q (n + 1) c s

/-- An assertion that holds at a cut holds at the next. -/
def Inductive (C : Nat → Nat → σ → Prop) (Q : Outcome σ ρ → Prop) : Prop :=
  ∀ n c s, C n c s → M.Leaves C Q n c s

variable {M} {C : Nat → Nat → σ → Prop} {Q : Outcome σ ρ → Prop} {n c : Nat} {s : σ}

theorem ends_of_done {r : ρ} (hd : M.done s = some r) : M.Ends Q n c s ↔ Q ⟨s, c, some r⟩ := by
  unfold Ends
  cases n with
  | zero => rw [runFrom, hd]
  | succ n => simp only [runFrom, hd]

theorem ends_zero (hd : M.done s = none) : M.Ends Q 0 c s ↔ Q ⟨s, c, none⟩ := by
  unfold Ends
  rw [runFrom, hd]

theorem ends_succ (hd : M.done s = none) :
    M.Ends Q (n + 1) c s ↔ M.Ends Q n (c + 1) (M.next s) := by
  unfold Ends
  simp only [runFrom, hd]

/-- Runs end as they should if the assertions are inductive. -/
theorem Inductive.ends (hC : M.Inductive C Q) (h : M.Leaves C Q n c s) : M.Ends Q n c s := by
  induction n generalizing c s with
  | zero =>
      cases h with
      | done hd h => exact (ends_of_done hd).mpr h
      | out hd h => exact (ends_zero hd).mpr h
  | succ n ih =>
      cases h with
      | done hd h => exact (ends_of_done hd).mpr h
      | arrive hd h => exact (ends_succ hd).mpr (ih (hC _ _ _ h))
      | next hd h => exact (ends_succ hd).mpr (ih h)

end LowerIrUtils.Machine
