import LowerIrUtils.Machine.Budget

/-!
# Forward simulation of machines

A machine `N` implements a machine `M` if from related states it moves when `M` moves, to
related states again, and stops where `M` stops, with a related result.  What `N` does once
`M` has come to a `Bad` result is left open: there `M` demands nothing.

Unlike `Lockstep` this is a one-sided law, since nothing can be told from a run of `N` that
`M` has left.
-/

universe u v

namespace LowerIrUtils

variable {σ τ : Type u} {ρ θ : Type v}

/-- `N` implements `M` from the states related by `R`, with results related by `Q`, as long
as `M` does not come to a `Bad` result. -/
structure Forward (M : Machine σ ρ) (N : Machine τ θ) (R : σ → τ → Prop) (Q : ρ → θ → Prop)
    (Bad : ρ → Prop) : Prop where
  done : ∀ {s t r}, R s t → M.done s = some r → ∃ q, N.done t = some q ∧ Q r q
  running : ∀ {s t}, R s t → M.done s = none → N.done t = none
  next : ∀ {s t}, R s t → M.done s = none →
    R (M.next s) (N.next t) ∨ ∃ r, M.done (M.next s) = some r ∧ Bad r

namespace Forward

variable {M : Machine σ ρ} {N : Machine τ θ} {R : σ → τ → Prop} {Q : ρ → θ → Prop}
  {Bad : ρ → Prop} {s : σ} {t : τ}

/-- As long as `M` has no result, `N` follows it. -/
theorem after (h : Forward M N R Q Bad) (hR : R s t) {n : Nat} (hrun : M.Running n s) :
    (N.Running n t ∧ R (M.after n s) (N.after n t)) ∨
      ∃ r, M.done (M.after n s) = some r ∧ Bad r := by
  induction n with
  | zero => exact .inl ⟨Machine.running_zero t, hR⟩
  | succ n ih =>
      obtain ⟨hrun, hd⟩ := Machine.running_succ'.mp hrun
      rcases ih hrun with ⟨hrun', hR'⟩ | ⟨r, hr, -⟩
      · rw [Machine.after_succ', Machine.after_succ']
        rcases h.next hR' hd with hnext | hbad
        · exact .inl ⟨Machine.running_succ'.mpr ⟨hrun', h.running hR' hd⟩, hnext⟩
        · exact .inr hbad
      · rw [hd] at hr
        cases hr

/-- The first result of `M` is one of `N`, unless it is a bad one. -/
theorem haltsAt (h : Forward M N R Q Bad) (hR : R s t) {k : Nat} {r : ρ}
    (hr : M.HaltsAt s k r) :
    Bad r ∨ ∃ q, N.HaltsAt t k q ∧ Q r q ∧ R (M.after k s) (N.after k t) := by
  rcases h.after hR hr.1 with ⟨hrun, hR'⟩ | ⟨r', hr', hbad⟩
  · obtain ⟨q, hq, hQ⟩ := h.done hR' hr.2
    exact .inr ⟨q, ⟨hrun, hq⟩, hQ, hR'⟩
  · rw [hr.2] at hr'
    cases hr'
    exact .inl hbad

/-- Where `M` is still moving, so is `N`. -/
theorem running_succ (h : Forward M N R Q Bad) (hR : R s t) {n : Nat}
    (hrun : M.Running (n + 1) s) :
    N.Running (n + 1) t ∧ R (M.after n s) (N.after n t) := by
  obtain ⟨hrun, hd⟩ := Machine.running_succ'.mp hrun
  rcases h.after hR hrun with ⟨hrun', hR'⟩ | ⟨r, hr, -⟩
  · exact ⟨Machine.running_succ'.mpr ⟨hrun', h.running hR' hd⟩, hR'⟩
  · rw [hd] at hr
    cases hr

end Forward

end LowerIrUtils
