import LowerIrUtils.Sim.BitOps

/-!
# Division

CLIF's divisions trap on a zero divisor, and `sdiv` on the one quotient that does not fit.
The simulator has a convention instead: such a division gives 0, by
`checked_div(..).unwrap_or(0)`.  It divides integers of every width in their sign-extended
64-bit form, however, and there the quotient of the least narrow integer by -1 fits; it
is cut back to the dividend.

`divide` states the convention at every width, and `NarrowOverflow` what it is missed on.
-/

namespace LowerIrUtils.Clif

/-- The opcodes of divisions and remainders. -/
def Opcode.isDivision : Opcode → Bool
  | udiv | urem | sdiv | srem => true
  | _ => false

namespace Reference

/-- The divisions at width `w`, with 0 on the inputs on which the instruction traps. -/
def divide {w : Nat} (op : Opcode) (x y : BitVec w) : Option (BitVec w) :=
  match op with
  | .udiv => some (if y = 0 then 0 else x / y)
  | .urem => some (if y = 0 then 0 else x % y)
  | .sdiv =>
      some (if y = 0 ∨ (x = .intMin w ∧ y = -1) then 0 else .ofInt w (x.toInt.tdiv y.toInt))
  | .srem => some (if y = 0 then 0 else .ofInt w (x.toInt.tmod y.toInt))
  | _ => none

/-- A division of two values of one type. -/
def BitVal.divide (op : Opcode) (a b : BitVal) : Option BitVal := do
  let y ← b.bitsAt a.ty
  let r ← Reference.divide op a.bits y
  some ⟨a.ty, r⟩

theorem BitVal.divide_mk (op : Opcode) {ty : Ty} (x y : BitVec ty.bits) :
    divide op ⟨ty, x⟩ ⟨ty, y⟩ = (Reference.divide op x y).map (mk ty) := by
  simp only [divide, bitsAt_mk, Option.bind_eq_bind, Option.bind_some]
  cases Reference.divide op x y <;> rfl

end Reference

end LowerIrUtils.Clif

namespace LowerIrUtils.Sim

open Clif Bits Reference

/-! ## The 64-bit form -/

namespace IntWidth

variable {w : Nat}

theorem intMin_ne_zero (h : IntWidth w) : BitVec.intMin w ≠ 0 := by
  cases h <;> decide

theorem neg_one_ne_zero (h : IntWidth w) : (-1 : BitVec w) ≠ 0 := by
  cases h <;> decide

/-- A narrow integer is never the least 64-bit one. -/
theorem signExtend_eq_intMin_iff (h : IntWidth w) {x : BitVec w} :
    x.signExtend 64 = .intMin 64 ↔ w = 64 ∧ x = .intMin w := by
  cases h with
  | w64 =>
      rw [BitVec.signExtend_eq]
      exact (and_iff_right rfl).symm
  | _ =>
      refine iff_of_false ?_ (by simp)
      intro heq
      have hle := BitVec.toInt_signExtend_of_le (x := x) (v := 64) (by decide)
      have hmin := BitVec.le_toInt x
      rw [heq] at hle
      rw [← hle] at hmin
      exact absurd hmin (by decide)

theorem signExtend_eq_neg_one_iff (h : IntWidth w) {y : BitVec w} :
    y.signExtend 64 = -1 ↔ y = -1 := by
  have hext : (-1 : BitVec w).signExtend 64 = -1 := by
    cases h <;> decide
  rw [← hext, signExtend_inj h.le]

theorem setWidth_eq_zero_iff (h : IntWidth w) {y : BitVec w} : y.setWidth 64 = 0 ↔ y = 0 := by
  constructor
  · intro hy
    have hback := congrArg (BitVec.setWidth w) hy
    rw [BitVec.setWidth_setWidth_of_le _ h.le, BitVec.setWidth_eq] at hback
    rw [hback]
    exact BitVec.setWidth_zero w 64
  · rintro rfl
    exact BitVec.setWidth_zero 64 w

/-- The least integer of width `w` divided by -1 and cut to the width is itself. -/
theorem ofInt_tdiv_neg_one (h : IntWidth w) :
    BitVec.ofInt w ((BitVec.intMin w).toInt.tdiv (-1 : BitVec w).toInt) = .intMin w := by
  cases h <;> decide

/-- Zero where the 64-bit quotient overflows is zero where the quotient of the width does,
unless that is a narrow one. -/
theorem sdiv_eq_iff (h : IntWidth w) (x y : BitVec w) :
    ((if y = 0 ∨ (x = .intMin w ∧ y = -1) then 0 else BitVec.ofInt w (x.toInt.tdiv y.toInt)) =
      if y = 0 ∨ ((w = 64 ∧ x = .intMin w) ∧ y = -1) then 0
        else BitVec.ofInt w (x.toInt.tdiv y.toInt)) ↔
      ¬ (w ≠ 64 ∧ x = .intMin w ∧ y = -1) := by
  by_cases hy : y = 0
  · subst hy
    rw [if_pos (.inl rfl), if_pos (.inl rfl)]
    exact iff_of_true rfl (fun hnarrow ↦ h.neg_one_ne_zero hnarrow.2.2.symm)
  · by_cases hmin : x = .intMin w ∧ y = -1
    · rw [if_pos (.inr hmin)]
      by_cases h64 : w = 64
      · rw [if_pos (.inr ⟨⟨h64, hmin.1⟩, hmin.2⟩)]
        exact iff_of_true rfl (fun hnarrow ↦ hnarrow.1 h64)
      · -- the quotient fits in 64 bits and is cut back to the dividend
        obtain ⟨rfl, rfl⟩ := hmin
        rw [if_neg (not_or.mpr ⟨hy, fun h ↦ h64 h.1.1⟩), h.ofInt_tdiv_neg_one]
        exact iff_of_false h.intMin_ne_zero.symm (fun hne ↦ hne ⟨h64, rfl, rfl⟩)
    · rw [if_neg (not_or.mpr ⟨hy, hmin⟩),
        if_neg (not_or.mpr ⟨hy, fun h ↦ hmin ⟨h.1.2, h.2⟩⟩)]
      exact iff_of_true rfl (fun hnarrow ↦ hmin hnarrow.2)

/-- The remainder by -1 is 0. -/
theorem ofInt_tmod_neg_one (h : IntWidth w) (x : BitVec w) :
    BitVec.ofInt w (x.toInt.tmod (-1 : BitVec w).toInt) = 0 := by
  have hneg : (-1 : BitVec w).toInt = -1 := by
    cases h <;> decide
  rw [hneg, Int.tmod_neg, Int.tmod_one]
  rfl

end IntWidth

/-! ## The policy -/

/-- A division of the sign-extended forms, cut back, follows the policy unless the quotient
overflows the width alone. -/
theorem divide_setWidth {op : Opcode} {w : Nat} (hw : IntWidth w) (hop : op.isDivision)
    (x y : BitVec w) :
    ∃ r, applyInt op (x.signExtend 64) (y.signExtend 64) w = .ok r ∧
      (divide op x y = some (r.setWidth w) ↔
        ¬ (op = .sdiv ∧ w ≠ 64 ∧ x = .intMin w ∧ y = -1)) := by
  have hzero : (0 : BitVec 64).setWidth w = 0 := BitVec.setWidth_zero w 64
  simp only [applyInt, hw.signExtend_and_mask, hw.setWidth_eq_zero_iff,
    signExtend_eq_zero_iff hw.le, hw.signExtend_eq_intMin_iff, hw.signExtend_eq_neg_one_iff]
  cases op with
  | udiv =>
      refine ⟨_, rfl, iff_of_true ?_ (fun h ↦ by cases h.1)⟩
      rw [apply_ite (BitVec.setWidth w), hzero, setWidth_udiv_setWidth hw.le]
      rfl
  | urem =>
      refine ⟨_, rfl, iff_of_true ?_ (fun h ↦ by cases h.1)⟩
      rw [apply_ite (BitVec.setWidth w), hzero, setWidth_umod_setWidth hw.le]
      rfl
  | sdiv =>
      refine ⟨_, rfl, ?_⟩
      rw [apply_ite (BitVec.setWidth w), hzero, setWidth_sdiv_signExtend hw.le, divide,
        Option.some_inj, hw.sdiv_eq_iff]
      exact not_congr (and_iff_right rfl).symm
  | srem =>
      refine ⟨_, rfl, iff_of_true ?_ (fun h ↦ by cases h.1)⟩
      rw [apply_ite (BitVec.setWidth w), hzero, setWidth_srem_signExtend hw.le, divide,
        Option.some_inj]
      by_cases hy : y = 0
      · rw [if_pos hy, if_pos (.inl hy)]
      · rw [if_neg hy]
        split
        · rename_i hmin
          rw [(hmin.resolve_left hy).2, hw.ofInt_tmod_neg_one]
        · rfl
  | _ => cases hop

section

variable [Ieee754.NanBits]

/-- The simulator divides the operands by the policy. -/
def Divides (op : Opcode) (a b : SimValue) : Prop :=
  ∃ v, applyBinary op a b = .ok v ∧ a.toBits.divide op b.toBits = some v.toBits

/-- The one division that does not follow the policy: the least narrow integer by -1. -/
def NarrowOverflow (op : Opcode) (a b : SimValue) : Prop :=
  op = .sdiv ∧ a.ty ≠ .I64 ∧ a.toBits.bits = .intMin _ ∧ b.toBits.bits = -1

/-- **Division follows one policy except on the least narrow integer by -1.**  Two operands
of one integer type are always divided, without an error and to a value of their type;
the value is the one of the policy if and only if the division is not `sdiv` of the least
integer of a narrow type by -1. -/
theorem divides_iff {op : Opcode} (hop : op.isDivision) {a b : SimValue} (ha : a.ty.isSimInt)
    (hab : b.ty = a.ty) :
    (∃ v, applyBinary op a b = .ok v ∧ v.ty = a.ty) ∧
      (Divides op a b ↔ ¬ NarrowOverflow op a b) := by
  obtain ⟨x, y, hx, hy⟩ := SimValue.exists_toBits_eq hab
  obtain ⟨r, hr, hiff⟩ := divide_setWidth (.of_isSimInt ha) hop x y
  obtain ⟨v, hv, hbits⟩ := applyBinary_of_applyInt ha hx hy hr
  refine ⟨⟨v, hv, by rw [← v.ty_toBits, hbits]⟩, ?_⟩
  have hwidth : a.ty ≠ .I64 ↔ a.ty.bits ≠ 64 := by
    cases hty : a.ty <;> first | decide | (rw [hty] at ha; cases ha)
  have hdivide : a.toBits.divide op b.toBits = some v.toBits ↔
      divide op x y = some (r.setWidth a.ty.bits) := by
    rw [hx, hy, BitVal.divide_mk, hbits]
    cases divide op x y <;> simp
  have hdivides : Divides op a b ↔ a.toBits.divide op b.toBits = some v.toBits := by
    constructor
    · rintro ⟨v', hv', h⟩
      cases hv.symm.trans hv'
      exact h
    · intro h
      exact ⟨v, hv, h⟩
  rw [hdivides, hdivide, hiff, NarrowOverflow, hwidth, hx, hy]

end

section

local instance divisionNan : Ieee754.NanBits := .quiet

/-- `7 / -2` at `I8`. -/
theorem divides_seven : Divides .sdiv (.I8 7) (.I8 (-2)) :=
  (divides_iff (a := .I8 7) (b := .I8 (-2)) rfl rfl rfl).2.mpr fun h ↦
    absurd h.2.2.1 (by decide)

/-- At `I8`, `-128 / -1` is -128. -/
theorem narrowOverflow_not_divides :
    ¬ ∀ (op : Opcode) (a b : SimValue), op.isDivision → a.ty.isSimInt → b.ty = a.ty →
      Divides op a b := by
  intro h
  obtain ⟨v, hv, hdivide⟩ := h .sdiv (.I8 (.intMin 8)) (.I8 (-1)) rfl rfl rfl
  cases hv
  cases hdivide

end

end LowerIrUtils.Sim
