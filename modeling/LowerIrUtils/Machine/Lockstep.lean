import LowerIrUtils.Machine.Budget

/-!
# Lockstep simulation of machines

Two machines run in lockstep from related states if related states have related results,
or none, and moving on from related states without a result leads to related states.
Then they come to their first results together, after as many moves, and the results are
related (`Lockstep.haltsAt`); the converse is the same law for the converse relations
(`Lockstep.symm`).
-/

universe u v

namespace LowerIrUtils

variable {σ τ : Type u} {ρ θ : Type v}

/-- The states related by `R` run in lockstep, up to `Q` on results. -/
structure Lockstep (M : Machine σ ρ) (N : Machine τ θ) (R : σ → τ → Prop) (Q : ρ → θ → Prop) :
    Prop where
  done : ∀ {s t}, R s t → Option.Rel Q (M.done s) (N.done t)
  next : ∀ {s t}, R s t → M.done s = none → N.done t = none → R (M.next s) (N.next t)

namespace Lockstep

variable {M : Machine σ ρ} {N : Machine τ θ} {R : σ → τ → Prop} {Q : ρ → θ → Prop}

theorem symm (h : Lockstep M N R Q) : Lockstep N M (fun t s ↦ R s t) (fun q r ↦ Q r q) where
  done {t s} hR := by
    have hdone := h.done hR
    revert hdone
    generalize M.done s = r
    generalize N.done t = q
    rintro (⟨hQ⟩ | -)
    · exact .some hQ
    · exact .none
  next hR ht hs := h.next hR hs ht

/-- A result of one machine is one of the other. -/
theorem exists_done (h : Lockstep M N R Q) {s : σ} {t : τ} (hR : R s t) {r : ρ}
    (hr : M.done s = some r) : ∃ q, N.done t = some q ∧ Q r q := by
  have hdone := h.done hR
  rw [hr] at hdone
  generalize N.done t = q at hdone ⊢
  cases hdone with
  | some hQ => exact ⟨_, rfl, hQ⟩

theorem done_eq_none (h : Lockstep M N R Q) {s : σ} {t : τ} (hR : R s t)
    (hr : M.done s = none) : N.done t = none := by
  have hdone := h.done hR
  rw [hr] at hdone
  generalize N.done t = q at hdone ⊢
  cases hdone
  rfl

/-- As long as neither has a result, the machines pass through related states. -/
theorem after (h : Lockstep M N R Q) {s : σ} {t : τ} (hR : R s t) {n : Nat}
    (hrun : M.Running n s) : N.Running n t ∧ R (M.after n s) (N.after n t) := by
  induction n with
  | zero => exact ⟨Machine.running_zero t, hR⟩
  | succ n ih =>
      obtain ⟨hrun, hd⟩ := Machine.running_succ'.mp hrun
      obtain ⟨hrun', hR'⟩ := ih hrun
      have hd' : N.done (N.after n t) = none := h.done_eq_none hR' hd
      refine ⟨Machine.running_succ'.mpr ⟨hrun', hd'⟩, ?_⟩
      rw [Machine.after_succ', Machine.after_succ']
      exact h.next hR' hd hd'

/-- The machines come to their first results together. -/
theorem haltsAt (h : Lockstep M N R Q) {s : σ} {t : τ} (hR : R s t) {k : Nat} {r : ρ}
    (hr : M.HaltsAt s k r) : ∃ q, N.HaltsAt t k q ∧ Q r q := by
  obtain ⟨hrun, hR'⟩ := h.after hR hr.1
  obtain ⟨q, hq, hQ⟩ := h.exists_done hR' hr.2
  exact ⟨q, ⟨hrun, hq⟩, hQ⟩

end Lockstep

end LowerIrUtils
