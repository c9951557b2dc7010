import LowerIrUtils.Bits.Extend
import LowerIrUtils.Clif.Reference
import LowerIrUtils.Sim.Arith

/-!
# The arithmetic of the simulator on bit vectors

The simulator computes on the sign-extended forms of integers and cuts the results back.
Here each operation is shown to be the one of the reference semantics, at every width.
-/

namespace LowerIrUtils.Sim

open Clif Bits Reference

/-- The bits of a value. -/
def SimValue.toBits : SimValue → BitVal
  | I8 x => ⟨.I8, x⟩
  | I16 x => ⟨.I16, x⟩
  | I32 x => ⟨.I32, x⟩
  | I64 x => ⟨.I64, x⟩
  | F32 x => ⟨.F32, x⟩
  | F64 x => ⟨.F64, x⟩

namespace SimValue

@[simp] theorem ty_toBits (a : SimValue) : a.toBits.ty = a.ty := by
  cases a <;> rfl

/-- A value is determined by its bits. -/
theorem toBits_injective : Function.Injective toBits := by
  intro a b h
  cases a <;> cases b <;> cases h <;> rfl

/-- An integer is coerced by sign extension. -/
theorem asI64_eq_signExtend {a : SimValue} (h : a.ty.isSimInt) :
    a.asI64 = a.toBits.bits.signExtend 64 := by
  cases a with
  | I64 x => exact (BitVec.signExtend_eq x).symm
  | F32 x => cases h
  | F64 x => cases h
  | _ => rfl

/-- An integer is taken back from its coercion. -/
theorem ofI64_asI64 {a : SimValue} (h : a.ty.isSimInt) : ofI64 a.asI64 a.ty = some a := by
  cases a with
  | I8 x => exact congrArg (some ∘ I8) (setWidth_signExtend (by decide) x)
  | I16 x => exact congrArg (some ∘ I16) (setWidth_signExtend (by decide) x)
  | I32 x => exact congrArg (some ∘ I32) (setWidth_signExtend (by decide) x)
  | I64 x => rfl
  | _ => cases h

theorem toBits_zeroOf {t : Ty} {v : SimValue} (h : zeroOf t = some v) :
    v.toBits = ⟨t, 0⟩ := by
  cases t <;> cases h <;> rfl

/-- A raw integer is cut to the width of the type. -/
theorem toBits_ofI64 {raw : BitVec 64} {t : Ty} {v : SimValue} (h : ofI64 raw t = some v) :
    v.toBits = ⟨t, raw.setWidth t.bits⟩ := by
  cases t with
  | I64 =>
      cases h
      exact congrArg (BitVal.mk .I64) (BitVec.setWidth_eq raw).symm
  | _ => cases h <;> rfl

/-- Two values of one type are bit vectors of one width. -/
theorem exists_toBits_eq {a b : SimValue} (h : b.ty = a.ty) :
    ∃ x y : BitVec a.ty.bits, a.toBits = ⟨a.ty, x⟩ ∧ b.toBits = ⟨a.ty, y⟩ := by
  cases a <;> cases b <;> first | exact ⟨_, _, rfl, rfl⟩ | cases h

theorem bits_toBits_le (a : SimValue) : a.toBits.ty.bits ≤ 64 := by
  cases a <;> exact of_decide_eq_true rfl

/-- A condition holds if the integer is not zero. -/
theorem isTrue_toBits {a : SimValue} (h : a.ty.isSimInt) :
    a.toBits.isTrue = decide (a.asI64 ≠ 0) := by
  rw [BitVal.isTrue, asI64_eq_signExtend h]
  simp only [ne_eq, signExtend_eq_zero_iff a.bits_toBits_le]

end SimValue

theorem toBits_ofBool (b : Bool) : (ofBool b).toBits = .ofBool b := by
  cases b <;> rfl

/-! ## Operations on two operands -/

/-- The widths of the simulated integers. -/
inductive IntWidth : Nat → Prop
  | w8 : IntWidth 8
  | w16 : IntWidth 16
  | w32 : IntWidth 32
  | w64 : IntWidth 64

namespace IntWidth

variable {w : Nat}

theorem le (h : IntWidth w) : w ≤ 64 := by
  cases h <;> decide

theorem exists_pow (h : IntWidth w) : ∃ k ≤ 6, w = 2 ^ k := by
  cases h with
  | w8 => exact ⟨3, by decide, rfl⟩
  | w16 => exact ⟨4, by decide, rfl⟩
  | w32 => exact ⟨5, by decide, rfl⟩
  | w64 => exact ⟨6, by decide, rfl⟩

/-- The simulated integer types have these widths. -/
theorem of_isSimInt {ty : Ty} (h : ty.isSimInt) : IntWidth ty.bits := by
  cases ty with
  | I8 => exact .w8
  | I16 => exact .w16
  | I32 => exact .w32
  | I64 => exact .w64
  | _ => cases h

/-- The masked operand of an unsigned operation is the zero-extended one. -/
theorem signExtend_and_mask (h : IntWidth w) (x : BitVec w) :
    (x.signExtend 64 &&& if w = 64 then .allOnes 64 else ((1 : BitVec 64) <<< w) - 1) =
      x.setWidth 64 := by
  cases h with
  | w64 => rw [if_pos rfl, BitVec.signExtend_eq, BitVec.and_allOnes, BitVec.setWidth_eq]
  | w8 => exact Bits.signExtend_and_mask (by decide) x
  | w16 => exact Bits.signExtend_and_mask (by decide) x
  | w32 => exact Bits.signExtend_and_mask (by decide) x

/-- The masked shift amount is the amount modulo the width. -/
theorem toNat_shamt (h : IntWidth w) (y : BitVec w) :
    ((y.signExtend 64).setWidth 32 &&& (.ofNat 32 w - 1)).toNat % 64 = y.toNat % w := by
  obtain ⟨k, hk, hw⟩ := h.exists_pow
  have hk32 : k < 32 := by omega
  have hkw : k ≤ w := hw ▸ Nat.lt_two_pow_self.le
  have hmod : ((y.signExtend 64).setWidth 32).toNat % 2 ^ k = y.toNat % 2 ^ k := by
    rw [BitVec.toNat_setWidth, Nat.mod_mod_of_dvd _ (Nat.pow_dvd_pow 2 hk32.le),
      toNat_signExtend_mod h.le hkw]
  have hlt : y.toNat % 2 ^ k < 64 :=
    Nat.lt_of_lt_of_le (Nat.mod_lt _ (Nat.two_pow_pos k)) (Nat.pow_le_pow_right Nat.two_pos hk)
  have hmask : BitVec.ofNat 32 w = .ofNat 32 (2 ^ k) := congrArg (BitVec.ofNat 32) hw
  have hamount : y.toNat % w = y.toNat % 2 ^ k := congrArg (y.toNat % ·) hw
  rw [hmask, toNat_and_sub_one hk32, hmod, hamount, Nat.mod_eq_of_lt hlt]

end IntWidth

/-- An operation on the sign-extended forms, cut back, is the one of the width. -/
theorem binary_setWidth {op : Opcode} {w : Nat} (hw : IntWidth w) (hop : op.isIntBinary)
    (href : op.isReference) {x y : BitVec w} {r : BitVec 64}
    (h : applyInt op (x.signExtend 64) (y.signExtend 64) w = .ok r) :
    binary op x y = some (r.setWidth w) := by
  have hx := setWidth_signExtend hw.le x
  have hy := setWidth_signExtend hw.le y
  simp only [applyInt, hw.signExtend_and_mask, hw.toNat_shamt] at h
  cases op with
  | iadd =>
      cases h
      rw [BitVec.setWidth_add _ _ hw.le, hx, hy]
      rfl
  | isub =>
      cases h
      rw [setWidth_sub hw.le, hx, hy]
      rfl
  | imul =>
      cases h
      rw [BitVec.setWidth_mul _ _ hw.le, hx, hy]
      rfl
  | band =>
      cases h
      rw [BitVec.setWidth_and, hx, hy]
      rfl
  | bor =>
      cases h
      rw [BitVec.setWidth_or, hx, hy]
      rfl
  | bxor =>
      cases h
      rw [BitVec.setWidth_xor, hx, hy]
      rfl
  | ishl =>
      cases h
      rw [BitVec.setWidth_shiftLeft_of_le hw.le, hx]
      rfl
  | ushr =>
      cases h
      rw [setWidth_ushiftRight_setWidth hw.le]
      rfl
  | sshr =>
      cases h
      rw [setWidth_sshiftRight_signExtend hw.le]
      rfl
  | sdiv | udiv | srem | urem => cases href
  | _ => cases hop

theorem applyBinary_of_applyInt [Ieee754.NanBits] {op : Opcode} {a b : SimValue} {ty : Ty}
    (hty : ty.isSimInt) {x y : BitVec ty.bits} (ha : a.toBits = ⟨ty, x⟩) (hb : b.toBits = ⟨ty, y⟩)
    {r : BitVec 64} (h : applyInt op (x.signExtend 64) (y.signExtend 64) ty.bits = .ok r) :
    ∃ v, applyBinary op a b = .ok v ∧ v.toBits = ⟨ty, r.setWidth ty.bits⟩ := by
  cases a with
  | I8 x' =>
      cases ha
      cases b <;> cases hb
      exact ⟨.I8 (r.setWidth 8), congrArg (Except.map _) h, rfl⟩
  | I16 x' =>
      cases ha
      cases b <;> cases hb
      exact ⟨.I16 (r.setWidth 16), congrArg (Except.map _) h, rfl⟩
  | I32 x' =>
      cases ha
      cases b <;> cases hb
      exact ⟨.I32 (r.setWidth 32), congrArg (Except.map _) h, rfl⟩
  | I64 x' =>
      cases ha
      cases b <;> cases hb
      -- here the sign-extended forms are the operands themselves
      have h' (y : BitVec 64) (h : applyInt op (x'.signExtend 64) (y.signExtend 64) 64 = .ok r) :
          applyInt op x' y 64 = .ok r := by
        rwa [BitVec.signExtend_eq, BitVec.signExtend_eq] at h
      exact ⟨.I64 r, congrArg (Except.map _) (h' y h),
        congrArg (BitVal.mk .I64) (BitVec.setWidth_eq r).symm⟩
  | F32 x' =>
      cases ha
      cases hty
  | F64 x' =>
      cases ha
      cases hty

/-- `apply_binary` on two integers of one type is `apply_int` on their sign-extended forms, cut
back. -/
theorem exists_applyBinary [Ieee754.NanBits] {op : Opcode} (hop : op.isIntBinary)
    {a b : SimValue} (hty : a.ty.isSimInt) (hab : b.ty = a.ty) :
    ∃ x y r v, a.toBits = ⟨a.ty, x⟩ ∧ b.toBits = ⟨a.ty, y⟩ ∧
      applyInt op (x.signExtend 64) (y.signExtend 64) a.ty.bits = .ok r ∧
      applyBinary op a b = .ok v ∧ v.toBits = ⟨a.ty, r.setWidth a.ty.bits⟩ := by
  obtain ⟨x, y, hx, hy⟩ := SimValue.exists_toBits_eq hab
  obtain ⟨r, hr⟩ := exists_applyInt hop (x.signExtend 64) (y.signExtend 64) a.ty.bits
  obtain ⟨v, hv, hbits⟩ := applyBinary_of_applyInt hty hx hy hr
  exact ⟨x, y, r, v, hx, hy, hr, hv, hbits⟩

/-- `apply_binary` is the operation of the reference semantics. -/
theorem binary_toBits [Ieee754.NanBits] {op : Opcode} (hop : op.isIntBinary)
    (href : op.isReference) {a b v : SimValue} (hab : b.ty = a.ty) (hty : a.ty.isSimInt)
    (h : applyBinary op a b = .ok v) : a.toBits.binary op b.toBits = some v.toBits := by
  obtain ⟨x, y, r, v', hx, hy, hr, hv', hbits⟩ := exists_applyBinary hop hty hab
  cases h.symm.trans hv'
  have hbinary := binary_setWidth (.of_isSimInt hty) hop href hr
  rw [hx, hy, BitVal.binary_mk, hbinary, hbits]
  rfl

/-! ## Comparisons -/

/-- Sign-extended bit vectors compare as they are. -/
theorem holds_signExtend {w v : Nat} (h : w ≤ v) (cond : IntCC) (x y : BitVec w) :
    cond.holds (x.signExtend v) (y.signExtend v) = cond.holds x y := by
  cases cond <;>
    simp only [IntCC.holds, signExtend_inj h, ne_eq, slt_signExtend h, sle_signExtend h,
      ult_signExtend h, ule_signExtend h]

/-- `icmp` compares the coerced operands. -/
theorem icmp_eq_holds (cond : IntCC) (a b : SimValue) :
    icmp cond a b = cond.holds a.asI64 b.asI64 := by
  cases cond <;> simp only [icmp, IntCC.holds, SimValue.asI64_eq_asU64]

/-- `icmp` is the comparison of the reference semantics. -/
theorem compare_toBits (cond : IntCC) {a b : SimValue} (hab : b.ty = a.ty)
    (hty : a.ty.isSimInt) :
    a.toBits.compare cond b.toBits = some (ofBool (icmp cond a b)).toBits := by
  rw [toBits_ofBool, icmp_eq_holds, SimValue.asI64_eq_signExtend hty,
    SimValue.asI64_eq_signExtend (hab ▸ hty)]
  have hle := a.bits_toBits_le
  have hab' : b.toBits.ty = a.toBits.ty := by rw [SimValue.ty_toBits, SimValue.ty_toBits, hab]
  generalize a.toBits = p at *
  generalize b.toBits = q at *
  obtain ⟨ty, x⟩ := p
  obtain ⟨ty', y⟩ := q
  cases hab'
  rw [holds_signExtend hle, BitVal.compare_mk]

/-! ## Operations on one operand -/

theorem unary_ineg_toBits {a v : SimValue} {ty : Ty} (h : applyUnary .ineg a ty = .ok v) :
    a.toBits.unary .ineg ty = some v.toBits := by
  cases a <;> cases h <;> rfl

theorem unary_bnot_toBits {a v : SimValue} {ty : Ty} (h : applyUnary .bnot a ty = .ok v) :
    a.toBits.unary .bnot ty = some v.toBits := by
  cases a <;> cases h <;> rfl

/-- The 64-bit form that `uextend` starts from is the zero extension. -/
theorem extendRaw_uextend {a : SimValue} {raw : BitVec 64} (h : extendRaw .uextend a = .ok raw) :
    raw = a.toBits.bits.setWidth 64 := by
  cases a with
  | I64 x =>
      cases h
      exact (BitVec.setWidth_eq raw).symm
  | _ => cases h <;> rfl

theorem bits_le_of_isSimInt {ty : Ty} (h : ty.isSimInt) : ty.bits ≤ 64 := by
  cases ty <;> first | exact of_decide_eq_true rfl | cases h

theorem unary_uextend_toBits {a v : SimValue} {ty : Ty} (hty : ty.isSimInt)
    (h : applyUnary .uextend a ty = .ok v) : a.toBits.unary .uextend ty = some v.toBits := by
  obtain ⟨raw, hraw, hv⟩ := applyExtend_eq_ok_iff.mp h
  rw [SimValue.toBits_ofI64 hv, extendRaw_uextend hraw,
    BitVec.setWidth_setWidth_of_le _ (bits_le_of_isSimInt hty)]
  rfl

theorem unary_sextend_toBits {a v : SimValue} {ty : Ty} (ha : a.ty.isSimInt) (hty : ty.isSimInt)
    (h : applyUnary .sextend a ty = .ok v) : a.toBits.unary .sextend ty = some v.toBits := by
  obtain ⟨raw, hraw, hv⟩ := applyExtend_eq_ok_iff.mp h
  cases hraw
  rw [SimValue.toBits_ofI64 hv, SimValue.asI64_eq_signExtend ha,
    setWidth_signExtend_of_le (bits_le_of_isSimInt hty)]
  rfl

theorem unary_ireduce_toBits {a v : SimValue} {ty : Ty} (ha : a.ty.isSimInt)
    (hle : ty.bits ≤ a.ty.bits) (h : applyUnary .ireduce a ty = .ok v) :
    a.toBits.unary .ireduce ty = some v.toBits := by
  have hv : SimValue.ofI64 a.asI64 ty = some v := applyUnary_ireduce_eq_ok_iff.mp h
  rw [← a.ty_toBits] at hle
  rw [SimValue.toBits_ofI64 hv, SimValue.asI64_eq_signExtend ha,
    setWidth_signExtend_of_le (hle.trans a.bits_toBits_le),
    BitVec.signExtend_eq_setWidth_of_le _ hle]
  rfl

end LowerIrUtils.Sim
