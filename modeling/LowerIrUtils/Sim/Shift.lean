import LowerIrUtils.Sim.BitOps
import LowerIrUtils.Sim.Unsupported

/-!
# Shifts

CLIF's shifts take an amount of any integer type, modulo the width of the value shifted.
The arm of `step` for binary instructions leaves them to `apply_binary`, which wants its
operands to be of one type whatever the opcode.  So the mask that `apply_int` puts on the
amount is only ever reached by an amount as wide as the value.
-/

namespace LowerIrUtils.Clif

/-- The opcodes of shifts. -/
def Opcode.isShift : Opcode → Bool
  | ishl | ushr | sshr => true
  | _ => false

namespace Reference

/-- The shifts of an integer of width `w`, by any amount. -/
def shift {w : Nat} (op : Opcode) (x : BitVec w) (amount : Nat) : Option (BitVec w) :=
  match op with
  | .ishl => some (x <<< (amount % w))
  | .ushr => some (x >>> (amount % w))
  | .sshr => some (x.sshiftRight (amount % w))
  | _ => none

/-- A shift of a value by the unsigned value of another, of whatever type. -/
def BitVal.shift (op : Opcode) (a b : BitVal) : Option BitVal := do
  let r ← Reference.shift op a.bits b.bits.toNat
  some ⟨a.ty, r⟩

/-- A shift by an amount of the same width is an operation on two operands of one width. -/
theorem shift_eq_binary {op : Opcode} (hop : op.isShift) {w : Nat} (x y : BitVec w) :
    shift op x y.toNat = binary op x y := by
  cases op <;> first | rfl | cases hop

theorem BitVal.shift_mk (op : Opcode) {ty ty' : Ty} (x : BitVec ty.bits) (y : BitVec ty'.bits) :
    shift op ⟨ty, x⟩ ⟨ty', y⟩ = (Reference.shift op x y.toNat).map (mk ty) := by
  simp only [shift, Option.bind_eq_bind]
  cases Reference.shift op x y.toNat <;> rfl

end Reference

end LowerIrUtils.Clif

namespace LowerIrUtils.Sim

open Clif Reference

section

variable [RustCore] {func : Function} {state : RunState} {inst : Inst}

/-- The instruction shifts the value `x` of `a` by the value `y` of `b` and goes on. -/
def Shifts (func : Function) (state : RunState) (inst : Inst) (op : Opcode) (a b : Value)
    (x y : SimValue) : Prop :=
  ∃ r, step func state inst (.binary op a b) =
      (bindResults func inst op [r] state, .continue_) ∧
    x.toBits.shift op y.toBits = some r.toBits

/-- A shift of two values of one integer type is the one of the width. -/
theorem exists_applyBinary_shift {op : Opcode} (hop : op.isShift) {x y : SimValue}
    (hx : x.ty.isSimInt) (hxy : y.ty = x.ty) :
    ∃ r, applyBinary op x y = .ok r ∧ x.toBits.shift op y.toBits = some r.toBits := by
  have hint : op.isIntBinary := by
    cases op <;> first | rfl | cases hop
  have href : op.isReference := by
    cases op <;> first | rfl | cases hop
  obtain ⟨p, q, r, v, hp, hq, hr, hv, hbits⟩ := exists_applyBinary hint hx hxy
  have hbinary := binary_setWidth (.of_isSimInt hx) hint href hr
  exact ⟨v, hv, by rw [hp, hq, BitVal.shift_mk, shift_eq_binary hop, hbinary, hbits]; rfl⟩

/-- **A shift is carried out exactly if its amount is as wide as the value.**  Whatever the
amount, a shift of an integer by an integer of the same type gives the shift modulo the
width, and the run goes on; an amount of any other type halts it. -/
theorem shifts_iff {op : Opcode} (hop : op.isShift) {a b : Value} {x y : SimValue}
    (ha : state.registers a = some x) (hb : state.registers b = some y) (hx : x.ty.isSimInt) :
    Shifts func state inst op a b x y ↔ y.ty = x.ty := by
  have hstep : step func state inst (.binary op a b) =
      computeStep func state inst (.binary op a b) := rfl
  unfold Shifts
  rw [hstep, computeStep, compute_binary ha hb]
  constructor
  · rintro ⟨r, hr, -⟩
    by_contra hne
    rw [applyBinary_of_ty_ne (Ne.symm hne)] at hr
    cases (Prod.mk.inj hr).2
  · intro hxy
    obtain ⟨r, hr, hshift⟩ := exists_applyBinary_shift hop hx hxy
    exact ⟨r, by rw [hr]; rfl, hshift⟩

end

/-! ## A shift by a narrow amount -/

section

local instance shiftFmt : RustCore := .blank

/-- `v2 = ishl v0, v1`, with `v1` of the given type. -/
def shiftLeft (amount : Ty) : Function :=
  .ofTables ⟨[.I64, amount], [.I64]⟩
    [(.binary .ishl ⟨0⟩ ⟨1⟩, [⟨2⟩]), (.multiAry .return_ [⟨2⟩], [])] [([⟨0⟩, ⟨1⟩], [⟨0⟩, ⟨1⟩])]
    [.I64, amount, .I64] [] []

/-- `v0` is 1 and `v1` is the amount. -/
def shiftState (amount : SimValue) : RunState :=
  ⟨.empty, (Env.empty.insert ⟨0⟩ (.I64 1)).insert ⟨1⟩ amount, [], false⟩

/-- `1 << 65` at `I64`. -/
theorem shifts_sixtyFive :
    Shifts (shiftLeft .I64) (shiftState (.I64 65)) ⟨0⟩ .ishl ⟨0⟩ ⟨1⟩ (.I64 1) (.I64 65) :=
  (shifts_iff rfl rfl rfl rfl).mpr rfl

/-- A shift of an `I64` by an `I8` halts the run. -/
theorem shiftLeft_by_I8 :
    ¬ ∀ (func : Function) (state : RunState) (inst : Inst) (op : Opcode) (a b : Value)
      (x y : SimValue), op.isShift → state.registers a = some x → state.registers b = some y →
      x.ty.isSimInt → y.ty.isSimInt → Shifts func state inst op a b x y := by
  intro h
  obtain ⟨r, hr, -⟩ := h (shiftLeft .I8) (shiftState (.I8 1)) ⟨0⟩ .ishl ⟨0⟩ ⟨1⟩ _ _ rfl rfl rfl
    rfl rfl
  cases (Prod.mk.inj hr).2

end

end LowerIrUtils.Sim
