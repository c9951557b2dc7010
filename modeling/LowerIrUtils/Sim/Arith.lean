import LowerIrUtils.Sim.Value

/-!
# Arithmetic of the simulator

`apply_binary`, `apply_int`, `apply_float`, `apply_unary`, `icmp` and `fcmp` of
`src/sim.rs`.  Integers of every width are computed on in their sign-extended 64-bit
form and cut back to their width afterwards.
-/

namespace LowerIrUtils.Sim

open Clif Ieee754

/-- `apply_int`, on the sign-extended forms of operands that are `width` bits wide. -/
def applyInt (op : Opcode) (x y : BitVec 64) (width : Nat) : Except SimError (BitVec 64) :=
  let mask : BitVec 64 := if width = 64 then .allOnes 64 else ((1 : BitVec 64) <<< width) - 1
  let xu := x &&& mask
  let yu := y &&& mask
  let shamt : BitVec 32 := y.setWidth 32 &&& (.ofNat 32 width - 1)
  match op with
  | .iadd => .ok (x + y)
  | .isub => .ok (x - y)
  | .imul => .ok (x * y)
  -- `checked_div` is `None` on a zero divisor and on `i64::MIN / -1`
  | .sdiv => .ok (if y = 0 ∨ (x = .intMin 64 ∧ y = -1) then 0 else x.sdiv y)
  | .udiv => .ok (if yu = 0 then 0 else xu / yu)
  | .srem => .ok (if y = 0 ∨ (x = .intMin 64 ∧ y = -1) then 0 else x.srem y)
  | .urem => .ok (if yu = 0 then 0 else xu % yu)
  | .band => .ok (x &&& y)
  | .bor => .ok (x ||| y)
  | .bxor => .ok (x ^^^ y)
  -- `wrapping_shl` and `wrapping_shr` take the amount modulo 64
  | .ishl => .ok (x <<< (shamt.toNat % 64))
  | .ushr => .ok (xu >>> (shamt.toNat % 64))
  | .sshr => .ok (x.sshiftRight (shamt.toNat % 64))
  | op => .error (.unsupportedOpcode op.name)

/-- `apply_int` has a result for every opcode of integer arithmetic. -/
theorem exists_applyInt {op : Opcode} (h : op.isIntBinary) (x y : BitVec 64) (width : Nat) :
    ∃ r, applyInt op x y width = .ok r := by
  cases op <;> first | exact ⟨_, rfl⟩ | cases h

/-- `apply_float`. -/
def applyFloat [NanBits] (op : Opcode) (x y : F64) : Except SimError F64 :=
  match op with
  | .fadd => .ok (x.add y)
  | .fsub => .ok (x.sub y)
  | .fmul => .ok (x.mul y)
  | .fdiv => .ok (x.div y)
  | op => .error (.unsupportedOpcode op.name)

theorem exists_applyFloat [NanBits] {op : Opcode} (h : op.isFloatBinary) (x y : F64) :
    ∃ r, applyFloat op x y = .ok r := by
  cases op <;> first | exact ⟨_, rfl⟩ | cases h

/-- `apply_binary`. -/
def applyBinary [NanBits] (op : Opcode) (a b : SimValue) : Except SimError SimValue :=
  match a, b with
  | .I8 x, .I8 y =>
      (applyInt op (x.signExtend 64) (y.signExtend 64) 8).map fun r ↦ .I8 (r.setWidth 8)
  | .I16 x, .I16 y =>
      (applyInt op (x.signExtend 64) (y.signExtend 64) 16).map fun r ↦ .I16 (r.setWidth 16)
  | .I32 x, .I32 y =>
      (applyInt op (x.signExtend 64) (y.signExtend 64) 32).map fun r ↦ .I32 (r.setWidth 32)
  | .I64 x, .I64 y => (applyInt op x y 64).map .I64
  | .F32 x, .F32 y => (applyFloat op x.toF64 y.toF64).map fun r ↦ .F32 r.toF32
  | .F64 x, .F64 y => (applyFloat op x y).map .F64
  | _, _ => .error (.typeMismatch s!"{op.name}: operand types differ")

/-- The `raw` value of `uextend` and `sextend` in `apply_unary`: `as_i64` sign-extends,
so `uextend` zero-extends from the width of the operand. -/
def extendRaw (op : Opcode) (a : SimValue) : Except SimError (BitVec 64) :=
  match op, a with
  | .sextend, a => .ok a.asI64
  | .uextend, .I8 x => .ok (x.setWidth 64)
  | .uextend, .I16 x => .ok (x.setWidth 64)
  | .uextend, .I32 x => .ok (x.setWidth 64)
  | .uextend, .I64 x => .ok x
  | op, _ => .error (.typeMismatch s!"{op.name} on float")

/-- The `uextend`/`sextend` arm of `apply_unary`. -/
def applyExtend (op : Opcode) (a : SimValue) (resultTy : Ty) : Except SimError SimValue := do
  let raw ← extendRaw op a
  match SimValue.ofI64 raw resultTy with
  | some v => .ok v
  | none => .error (.typeMismatch s!"{op.name} -> {resultTy.name}")

/-- `apply_unary`. -/
def applyUnary (op : Opcode) (a : SimValue) (resultTy : Ty) : Except SimError SimValue :=
  match op with
  | .ineg =>
      match a with
      | .I8 x => .ok (.I8 (-x))
      | .I16 x => .ok (.I16 (-x))
      | .I32 x => .ok (.I32 (-x))
      | .I64 x => .ok (.I64 (-x))
      | _ => .error (.typeMismatch "ineg on float")
  | .fneg =>
      match a with
      | .F32 x => .ok (.F32 x.negate)
      | .F64 x => .ok (.F64 x.negate)
      | _ => .error (.typeMismatch "fneg on int")
  | .bnot =>
      match a with
      | .I8 x => .ok (.I8 (~~~x))
      | .I16 x => .ok (.I16 (~~~x))
      | .I32 x => .ok (.I32 (~~~x))
      | .I64 x => .ok (.I64 (~~~x))
      | _ => .error (.typeMismatch "bnot on float")
  | .uextend => applyExtend .uextend a resultTy
  | .sextend => applyExtend .sextend a resultTy
  | .ireduce =>
      match SimValue.ofI64 a.asI64 resultTy with
      | some v => .ok v
      | none => .error (.typeMismatch s!"ireduce -> {resultTy.name}")
  | .bitcast =>
      match resultTy with
      | .F32 => .ok (.F32 (a.asU64.setWidth 32))
      | .F64 => .ok (.F64 a.asU64)
      | resultTy =>
          match SimValue.ofI64 a.asU64 resultTy with
          | some v => .ok v
          | none => .error (.typeMismatch s!"bitcast -> {resultTy.name}")
  | op => .error (.unsupportedOpcode op.name)

theorem applyExtend_eq_ok_iff {op : Opcode} {a v : SimValue} {ty : Ty} :
    applyExtend op a ty = .ok v ↔
      ∃ raw, extendRaw op a = .ok raw ∧ SimValue.ofI64 raw ty = some v := by
  unfold applyExtend
  cases extendRaw op a with
  | error e =>
      constructor
      · intro h
        cases h
      · rintro ⟨_, h, -⟩
        cases h
  | ok raw =>
      have hraw : (∃ raw', Except.ok (ε := SimError) raw = .ok raw' ∧
          SimValue.ofI64 raw' ty = some v) ↔ SimValue.ofI64 raw ty = some v := by
        simp only [Except.ok.injEq, exists_eq_left']
      rw [hraw]
      show (match SimValue.ofI64 raw ty with | some v => _ | none => _) = _ ↔ _
      cases SimValue.ofI64 raw ty <;> simp

theorem applyUnary_ireduce_eq_ok_iff {a v : SimValue} {ty : Ty} :
    applyUnary .ireduce a ty = .ok v ↔ SimValue.ofI64 a.asI64 ty = some v := by
  unfold applyUnary
  cases SimValue.ofI64 a.asI64 ty <;> simp

/-- `icmp`. -/
def icmp (cond : IntCC) (a b : SimValue) : Bool :=
  match cond with
  | .equal => a.asI64 = b.asI64
  | .notEqual => a.asI64 ≠ b.asI64
  | .signedLessThan => a.asI64.slt b.asI64
  | .signedLessThanOrEqual => a.asI64.sle b.asI64
  | .signedGreaterThan => b.asI64.slt a.asI64
  | .signedGreaterThanOrEqual => b.asI64.sle a.asI64
  | .unsignedLessThan => a.asU64.ult b.asU64
  | .unsignedLessThanOrEqual => a.asU64.ule b.asU64
  | .unsignedGreaterThan => b.asU64.ult a.asU64
  | .unsignedGreaterThanOrEqual => b.asU64.ule a.asU64

/-- The closure `to_f64` of `fcmp`: an integer compares as a NaN. -/
def fcmpOperand [NanBits] : SimValue → F64
  | .F32 x => x.toF64
  | .F64 x => x
  | _ => .ofNat 64 binary64.nanBits

/-- `fcmp`. -/
def fcmp [NanBits] (cond : FloatCC) (a b : SimValue) : Bool :=
  let x := fcmpOperand a
  let y := fcmpOperand b
  let ord := !(x.isNaN || y.isNaN)
  match cond with
  | .ordered => ord
  | .unordered => !ord
  | .equal => ord && x.eq y
  | .notEqual => !ord || !x.eq y
  | .orderedNotEqual => ord && !x.eq y
  | .unorderedOrEqual => !ord || x.eq y
  | .lessThan => ord && x.lt y
  | .lessThanOrEqual => ord && (x.lt y || x.eq y)
  | .greaterThan => ord && y.lt x
  | .greaterThanOrEqual => ord && (y.lt x || x.eq y)
  | .unorderedOrLessThan => !ord || x.lt y
  | .unorderedOrLessThanOrEqual => !ord || (x.lt y || x.eq y)
  | .unorderedOrGreaterThan => !ord || y.lt x
  | .unorderedOrGreaterThanOrEqual => !ord || (y.lt x || x.eq y)

/-- `bool as i8`, as a `SimValue`. -/
def ofBool (b : Bool) : SimValue := .I8 (if b then 1 else 0)

end LowerIrUtils.Sim
