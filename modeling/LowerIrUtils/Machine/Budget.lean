import Mathlib.Logic.Function.Iterate

/-!
# Deterministic machines under a step budget

A `Machine` either has a result in a state (`done`) or moves on (`next`).  Running
it under a budget of `n` moves stops at the first state with a result, or after
exactly `n` moves.  Noticing a result is free; only moves are charged.

The law everything else is read off from is that a budgeted run depends on the
budget in one way only: `HaltsAt s k r` says that the unbounded machine started in
`s` has its first result `r` after exactly `k` moves, and a run with budget `n`
reports that result if and only if `k ≤ n`.

Nothing here knows what the states are.
-/

universe u v

namespace LowerIrUtils

/-- A deterministic machine over the states `σ` with results in `ρ`. -/
structure Machine (σ : Type u) (ρ : Type v) where
  /-- The result of a state, if the machine has stopped there. -/
  done : σ → Option ρ
  /-- The next state, where the machine has not stopped. -/
  next : σ → σ

namespace Machine

/-- What a budgeted run leaves behind. -/
structure Outcome (σ : Type u) (ρ : Type v) where
  /-- The last state. -/
  state : σ
  /-- The number of moves made. -/
  steps : Nat
  /-- The result, or `none` if the budget ran out first. -/
  result : Option ρ

variable {σ : Type u} {ρ : Type v} (M : Machine σ ρ)

/-- Run for at most `n` moves, the count so far being `k`. -/
def runFrom : Nat → Nat → σ → Outcome σ ρ
  | 0, k, s => ⟨s, k, M.done s⟩
  | n + 1, k, s =>
      match M.done s with
      | some r => ⟨s, k, some r⟩
      | none => runFrom n (k + 1) (M.next s)

/-- Run for at most `n` moves. -/
def run (n : Nat) (s : σ) : Outcome σ ρ := M.runFrom n 0 s

/-- The state after `n` moves, the budget left aside. -/
def after (n : Nat) (s : σ) : σ := M.next^[n] s

@[simp] theorem after_zero (s : σ) : M.after 0 s = s := rfl

/-- The first move taken apart from the rest. -/
theorem after_succ (n : Nat) (s : σ) : M.after (n + 1) s = M.after n (M.next s) := rfl

/-- The last move taken apart from the rest. -/
theorem after_succ' (n : Nat) (s : σ) : M.after (n + 1) s = M.next (M.after n s) :=
  Function.iterate_succ_apply' M.next n s

theorem after_add (m n : Nat) (s : σ) : M.after (m + n) s = M.after n (M.after m s) := by
  rw [after, Nat.add_comm, Function.iterate_add_apply]
  rfl

/-- None of the first `n` states has a result: the machine is still moving after
`n` moves, whatever the state it is in then. -/
def Running (n : Nat) (s : σ) : Prop := ∀ j < n, M.done (M.after j s) = none

/-- The machine started in `s` has its first result `r` after exactly `k` moves. -/
def HaltsAt (s : σ) (k : Nat) (r : ρ) : Prop :=
  M.Running k s ∧ M.done (M.after k s) = some r

variable {M}

theorem Running.mono {m n : Nat} {s : σ} (h : M.Running n s) (hmn : m ≤ n) : M.Running m s :=
  fun j hj ↦ h j (Nat.lt_of_lt_of_le hj hmn)

@[simp] theorem running_zero (s : σ) : M.Running 0 s := fun _ hj ↦ absurd hj (Nat.not_lt_zero _)

/-- Moving on from `s` for `n + 1` moves is being unfinished in `s` and moving on
from its successor for `n` moves. -/
theorem running_succ {n : Nat} {s : σ} :
    M.Running (n + 1) s ↔ M.done s = none ∧ M.Running n (M.next s) := by
  constructor
  · intro h
    exact ⟨h 0 (Nat.succ_pos n), fun j hj ↦ h (j + 1) (Nat.succ_lt_succ hj)⟩
  · rintro ⟨h0, h⟩ j hj
    cases j with
    | zero => exact h0
    | succ j => exact h j (Nat.lt_of_succ_lt_succ hj)

/-- The last of the unfinished states taken apart from the rest. -/
theorem running_succ' {n : Nat} {s : σ} :
    M.Running (n + 1) s ↔ M.Running n s ∧ M.done (M.after n s) = none := by
  constructor
  · intro h
    exact ⟨h.mono (Nat.le_succ n), h n (Nat.lt_succ_self n)⟩
  · rintro ⟨h, hn⟩ j hj
    rcases Nat.lt_succ_iff_lt_or_eq.mp hj with hj | rfl
    · exact h j hj
    · exact hn

/-- Within any number of moves the machine has had its first result, or it is
still moving. -/
theorem haltsAt_or_running (n : Nat) (s : σ) :
    (∃ k ≤ n, ∃ r, M.HaltsAt s k r) ∨ M.Running (n + 1) s := by
  induction n with
  | zero =>
      cases h : M.done s with
      | some r => exact .inl ⟨0, Nat.le_refl 0, r, running_zero s, h⟩
      | none => exact .inr (running_succ'.mpr ⟨running_zero s, h⟩)
  | succ n ih =>
      rcases ih with ⟨k, hk, r, h⟩ | h
      · exact .inl ⟨k, Nat.le_succ_of_le hk, r, h⟩
      · cases hd : M.done (M.after (n + 1) s) with
        | some r => exact .inl ⟨n + 1, Nat.le_refl _, r, h, hd⟩
        | none => exact .inr (running_succ'.mpr ⟨h, hd⟩)

/-- Where a machine that has a result stays as it is, one that has none after `n` moves
never had one before. -/
theorem running_of_done_eq_none (hstay : ∀ t r, M.done t = some r → M.next t = t) {n : Nat} {s : σ}
    (h : M.done (M.after n s) = none) : M.Running (n + 1) s := by
  induction n with
  | zero => exact running_succ'.mpr ⟨running_zero s, h⟩
  | succ n ih =>
      refine running_succ'.mpr ⟨ih ?_, h⟩
      cases hd : M.done (M.after n s) with
      | none => rfl
      | some r => rw [after_succ', hstay _ r hd, hd] at h; exact h

/-- There, one that has a result after `n` moves came to it within these moves. -/
theorem exists_haltsAt_of_done (hstay : ∀ t r, M.done t = some r → M.next t = t) {n : Nat} {s : σ}
    {r : ρ} (h : M.done (M.after n s) = some r) : ∃ k ≤ n, M.HaltsAt s k r := by
  rcases haltsAt_or_running n s with ⟨k, hk, r', hr'⟩ | hrun
  · have hafter (m : Nat) : M.after (k + m) s = M.after k s := by
      induction m with
      | zero => rfl
      | succ m ih => rw [← Nat.add_assoc, after_succ', ih, hstay _ r' hr'.2]
    obtain ⟨m, rfl⟩ := Nat.exists_eq_add_of_le hk
    rw [hafter m, hr'.2] at h
    cases h
    exact ⟨k, hk, hr'⟩
  · have hnone := (running_succ'.mp hrun).2
    rw [h] at hnone
    cases hnone

/-! ## What a budgeted run reports -/

theorem runFrom_of_haltsAt {n k c : Nat} {s : σ} {r : ρ} (h : M.HaltsAt s k r) (hk : k ≤ n) :
    M.runFrom n c s = ⟨M.after k s, c + k, some r⟩ := by
  induction n generalizing k c s with
  | zero =>
      obtain rfl : k = 0 := Nat.le_zero.mp hk
      have hd : M.done s = some r := h.2
      simp only [runFrom, hd, after_zero, Nat.add_zero]
  | succ n ih =>
      cases k with
      | zero =>
          have hd : M.done s = some r := h.2
          simp only [runFrom, hd, after_zero, Nat.add_zero]
      | succ k =>
          obtain ⟨hd, hrun⟩ := running_succ.mp h.1
          have hnext : M.HaltsAt (M.next s) k r := ⟨hrun, h.2⟩
          simp only [runFrom, hd]
          rw [ih hnext (Nat.le_of_succ_le_succ hk), after_succ, Nat.add_right_comm, Nat.add_assoc]

theorem runFrom_of_running {n c : Nat} {s : σ} (h : M.Running (n + 1) s) :
    M.runFrom n c s = ⟨M.after n s, c + n, none⟩ := by
  induction n generalizing c s with
  | zero =>
      have hd : M.done s = none := (running_succ.mp h).1
      simp only [runFrom, hd, after_zero, Nat.add_zero]
  | succ n ih =>
      obtain ⟨hd, hrun⟩ := running_succ.mp h
      simp only [runFrom, hd]
      rw [ih hrun, after_succ, Nat.add_right_comm, Nat.add_assoc]

/-- A budget that reaches the first result reports it, and the moves it took. -/
theorem run_of_haltsAt {n k : Nat} {s : σ} {r : ρ} (h : M.HaltsAt s k r) (hk : k ≤ n) :
    M.run n s = ⟨M.after k s, k, some r⟩ := by
  rw [run, runFrom_of_haltsAt h hk, Nat.zero_add]

/-- A budget the machine is still moving at the end of is used up exactly. -/
theorem run_of_running {n : Nat} {s : σ} (h : M.Running (n + 1) s) :
    M.run n s = ⟨M.after n s, n, none⟩ := by
  rw [run, runFrom_of_running h, Nat.zero_add]

/-! ## Invariants and lockstep -/

/-- A property of the first state that every move from an unfinished state keeps
holds of every state passed through. -/
theorem after_invariant {P : σ → Prop} {s : σ} (h0 : P s)
    (hnext : ∀ t, M.done t = none → P t → P (M.next t)) {n : Nat} (h : M.Running n s) :
    P (M.after n s) := by
  induction n with
  | zero => exact h0
  | succ n ih =>
      obtain ⟨hrun, hd⟩ := running_succ'.mp h
      rw [after_succ']
      exact hnext _ hd (ih hrun)

/-- Two machines with the same results that move alike in every unfinished state the first
one passes through have the same runs. -/
theorem run_eq_of_agree {N : Machine σ ρ} (hdone : N.done = M.done) {n : Nat} {s : σ}
    (h : ∀ j < n, M.done (M.after j s) = none → N.next (M.after j s) = M.next (M.after j s)) :
    N.run n s = M.run n s := by
  have hfrom (k : Nat) : N.runFrom n k s = M.runFrom n k s := by
    induction n generalizing k s with
    | zero => simp only [runFrom, hdone]
    | succ n ih =>
        cases hd : M.done s with
        | some r => simp only [runFrom, hdone, hd]
        | none =>
            have hnext : N.next s = M.next s := h 0 (Nat.succ_pos n) hd
            have hrest := ih (s := M.next s) (fun j hj ↦ h (j + 1) (Nat.succ_lt_succ hj)) (k + 1)
            simp only [runFrom, hdone, hd, hnext, hrest]
  exact hfrom 0

end Machine

end LowerIrUtils
