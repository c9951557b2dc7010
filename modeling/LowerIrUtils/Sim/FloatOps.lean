import LowerIrUtils.Clif.Semantics
import LowerIrUtils.Sim.BitOps

/-!
# The float arithmetic of the simulator

The simulator computes on `F32` in double precision and rounds the result again, and
compares two `F32`s as `f64`s.  Neither shows: every operation has the result of the
single-precision operation, rounded once, up to the bits of a NaN (`applyBinary_single`),
and a comparison holds of the relations between the two numbers that its condition names
(`fcmp_eq_holds`).
-/

namespace LowerIrUtils.Ieee754

namespace Datum

/-- Two data are unordered if one of them is a NaN. -/
theorem compare_eq_none_iff {a b : Datum} : a.compare b = none ↔ a = .nan ∨ b = .nan := by
  cases a <;> cases b <;> simp [compare]

theorem compare_swap (a b : Datum) : b.compare a = (a.compare b).map Ordering.swap := by
  cases a with
  | nan => cases b <;> rfl
  | inf s =>
      cases b with
      | nan => rfl
      | inf t => cases s <;> cases t <;> rfl
      | finite t n f => cases s <;> rfl
  | finite s m e =>
      cases b with
      | nan => rfl
      | inf t => cases t <;> rfl
      | finite t n f =>
          show some (Ord.compare (scaled t n f (min f e)) (scaled s m e (min f e))) =
            some (Ord.compare (scaled s m e (min e f)) (scaled t n f (min e f))).swap
          rw [Int.min_comm f e, Int.compare_swap]

end Datum

end LowerIrUtils.Ieee754

namespace LowerIrUtils.Sim

open Clif Ieee754

section

variable [NanBits]

/-- What `fcmp` makes of its operands decides on their order. -/
theorem fcmp_eq (cond : FloatCC) (a b : SimValue) :
    fcmp cond a b = cond.holds ((fcmpOperand a).datum.compare (fcmpOperand b).datum) := by
  generalize hx : fcmpOperand a = x
  generalize hy : fcmpOperand b = y
  have hord : (x.isNaN || y.isNaN) = (x.datum.compare y.datum).isNone := by
    rw [F64.isNaN, F64.isNaN, Bool.eq_iff_iff, Option.isNone_iff_eq_none,
      Datum.compare_eq_none_iff]
    simp
  have hgt : y.lt x = decide (x.datum.compare y.datum = some .gt) := by
    rw [F64.lt, Datum.compare_swap x.datum y.datum]
    cases x.datum.compare y.datum with
    | none => rfl
    | some o => cases o <;> rfl
  have hlt : x.lt y = decide (x.datum.compare y.datum = some .lt) := rfl
  simp only [fcmp, hx, hy, hord, hlt, hgt, F64.eq]
  generalize x.datum.compare y.datum = order
  cases order with
  | none => cases cond <;> rfl
  | some o => cases o <;> cases cond <;> rfl

/-- The numbers that `fcmp` compares are those of the operands: widening is exact. -/
theorem fcmp_floats (cond : FloatCC) {a b : SimValue} (ha : a.ty.isSimFloat)
    (hb : b.ty = a.ty) :
    fcmp cond a b = cond.holds (a.toBits.datum.compare b.toBits.datum) := by
  rw [fcmp_eq]
  cases a with
  | F32 x =>
      cases b with
      | F32 y => exact congrArg cond.holds (x.compare_toF64 y)
      | _ => cases hb
  | F64 x =>
      cases b with
      | F64 y => rfl
      | _ => cases hb
  | _ => cases ha

/-- **Comparisons.**  On two floats, of either width, each condition holds of exactly the
orders it names, and an unordered pair is one with a NaN.  The order is that of the numbers
themselves: an `F32` is not changed by being widened. -/
theorem fcmp_eq_holds (cond : FloatCC) (a b : SimValue) (ha : a.ty.isSimFloat)
    (hb : b.ty = a.ty) :
    fcmp cond a b = cond.holds (a.toBits.datum.compare b.toBits.datum) ∧
      (a.toBits.datum.compare b.toBits.datum = none ↔
        a.toBits.datum = .nan ∨ b.toBits.datum = .nan) ∧
      ∀ s t m n e f, a.toBits.datum = .finite s m e → b.toBits.datum = .finite t n f →
        a.toBits.datum.compare b.toBits.datum = some (compare (signed s m e) (signed t n f)) := by
  refine ⟨fcmp_floats cond ha hb, Datum.compare_eq_none_iff, ?_⟩
  intro s t m n e f hs ht
  rw [hs, ht, Datum.Same.compare_finite]

/-- `apply_float` is the operation of the opcode. -/
theorem applyFloat_of_arith {op : Opcode} {f : Arith} (hop : op.arith = some f)
    (x y : Ieee754.F64) : applyFloat op x y = .ok (F64.arith f x y) := by
  cases op <;> cases hop <;> rfl

/-- An operation in double precision, rounded again, is the one of single precision. -/
theorem applyBinary_F32_of_arith {op : Opcode} {f : Arith} (hop : op.arith = some f)
    (x y : Ieee754.F32) :
    ∃ r : Ieee754.F32, applyBinary op (.F32 x) (.F32 y) = .ok (.F32 r) ∧
      r.datum = (F32.round f x y).datum ∧
      ((F32.round f x y).datum ≠ .nan → r = F32.round f x y) := by
  refine ⟨(F64.arith f x.toF64 y.toF64).toF32, ?_, ?_, ?_⟩
  · rw [applyBinary, applyFloat_of_arith hop]
    rfl
  · rw [F32.toF32_arith, F32.datum_settle]
  · intro hnan
    rw [F32.toF32_arith, F32.settle_of_ne_nan _ hnan]

/-- An operation in double precision is rounded once. -/
theorem applyBinary_F64_of_arith {op : Opcode} {f : Arith} (hop : op.arith = some f)
    (x y : Ieee754.F64) :
    ∃ r : Ieee754.F64, applyBinary op (.F64 x) (.F64 y) = .ok (.F64 r) ∧
      r.datum = (F64.round f x y).datum ∧
      ((F64.round f x y).datum ≠ .nan → r = F64.round f x y) := by
  refine ⟨F64.arith f x y, ?_, F64.datum_settle _ _, F64.settle_of_ne_nan _⟩
  rw [applyBinary, applyFloat_of_arith hop]
  rfl

/-- **No double rounding.**  Every `F32` operation gives the single-precision result, rounded
once, although the simulator rounds to double precision first; where that result is a NaN the
operation gives one too, of whatever bits.  And a number that is widened and narrowed is
unchanged. -/
theorem applyBinary_single {op : Opcode} (hop : op.isFloatBinary) (x y : Ieee754.F32) :
    (∃ z r, F32.apply op x y = some z ∧ applyBinary op (.F32 x) (.F32 y) = .ok (.F32 r) ∧
      (z.datum ≠ .nan → r = z) ∧ (z.datum = .nan → r.datum = .nan)) ∧
      (x.datum ≠ .nan → x.toF64.toF32 = x) := by
  obtain ⟨f, hf⟩ := Opcode.exists_arith hop
  obtain ⟨r, hr, hdatum, hexact⟩ := applyBinary_F32_of_arith hf x y
  refine ⟨⟨F32.round f x y, r, ?_, hr, hexact, hdatum.trans⟩, F32.toF32_toF64⟩
  rw [F32.apply, hf, Option.map_some]

end

/-! ## Zeros, NaNs and a third -/

section

local instance floatNan : NanBits := .quiet

/-- Minus zero and zero are equal, and a NaN differs from itself. -/
theorem fcmp_eq_holds_zero :
    fcmp .equal (.F32 0x80000000) (.F32 0) = true ∧
      fcmp .equal (.F32 0x7FC00000) (.F32 0x7FC00000) = false := by
  refine ⟨?_, ?_⟩
  · rw [(fcmp_eq_holds .equal (.F32 0x80000000) (.F32 0) rfl rfl).1]
    decide
  · rw [(fcmp_eq_holds .equal (.F32 0x7FC00000) (.F32 0x7FC00000) rfl rfl).1]
    decide

/-- A third is rounded once. -/
theorem applyBinary_single_third :
    applyBinary .fdiv (.F32 0x3F800000) (.F32 0x40400000) = .ok (.F32 0x3EAAAAAB) := by
  obtain ⟨⟨z, r, hz, hdiv, hexact, -⟩, -⟩ :=
    applyBinary_single (show Opcode.fdiv.isFloatBinary from rfl) 0x3F800000 0x40400000
  have hthird : F32.apply .fdiv 0x3F800000 0x40400000 = some 0x3EAAAAAB := by decide
  obtain rfl : z = 0x3EAAAAAB := Option.some.inj (hz.symm.trans hthird)
  rw [hdiv, hexact (by decide)]

end

end LowerIrUtils.Sim
