import Mathlib.Data.Nat.ModEq

/-!
# Arithmetic on sign-extended bit vectors

A bit vector of width `w` may be held in its sign-extended form of a larger width `v`
and computed on there, the result being cut back to `w` afterwards.  These are the laws
under which that computes what the operation of width `w` does: truncation undoes the
extension and commutes with addition, multiplication, logic and left shifts; comparisons,
signed and unsigned, are the same on both forms; and right shifts and divisions need the
form that fits them, sign-extended or zero-extended.
-/

namespace LowerIrUtils.Bits

variable {w v : Nat}

/-! ## Truncation after extension -/

/-- Truncating a sign extension leaves a shorter one. -/
theorem setWidth_signExtend_of_le {n : Nat} (h : n ≤ v) (x : BitVec w) :
    (x.signExtend v).setWidth n = x.signExtend n := by
  apply BitVec.eq_of_getLsbD_eq
  intro i hi
  have hv : i < v := Nat.lt_of_lt_of_le hi h
  simp only [BitVec.getLsbD_setWidth, BitVec.getLsbD_signExtend, hi, hv, decide_true,
    Bool.true_and]

/-- Truncation undoes sign extension. -/
theorem setWidth_signExtend (h : w ≤ v) (x : BitVec w) : (x.signExtend v).setWidth w = x := by
  rw [setWidth_signExtend_of_le h, BitVec.signExtend_eq]

/-- Sign extension loses nothing. -/
theorem signExtend_inj (h : w ≤ v) {x y : BitVec w} :
    x.signExtend v = y.signExtend v ↔ x = y := by
  constructor
  · intro hxy
    rw [← setWidth_signExtend h x, hxy, setWidth_signExtend h y]
  · rintro rfl
    rfl

theorem signExtend_eq_zero_iff (h : w ≤ v) {x : BitVec w} : x.signExtend v = 0 ↔ x = 0 := by
  have hzero : (0#w).signExtend v = 0#v := by
    rw [BitVec.signExtend_eq_setWidth_of_msb_false BitVec.msb_zero]
    exact BitVec.setWidth_zero v w
  show x.signExtend v = 0#v ↔ x = 0#w
  rw [← hzero, signExtend_inj h]

theorem setWidth_sub {i n : Nat} (h : i ≤ n) (x y : BitVec n) :
    (x - y).setWidth i = x.setWidth i - y.setWidth i := by
  rw [BitVec.sub_eq_add_neg, BitVec.setWidth_add _ _ h, BitVec.setWidth_neg_of_le h,
    ← BitVec.sub_eq_add_neg]

/-- A right shift of the zero-extended form shifts in zeros. -/
theorem setWidth_ushiftRight_setWidth (h : w ≤ v) (x : BitVec w) (n : Nat) :
    (x.setWidth v >>> n).setWidth w = x >>> n := by
  apply BitVec.eq_of_getLsbD_eq
  intro i hi
  simp only [BitVec.getLsbD_setWidth, BitVec.getLsbD_ushiftRight, hi, decide_true, Bool.true_and]
  by_cases hn : n + i < v
  · rw [decide_eq_true hn, Bool.true_and]
  · have hw : w ≤ n + i := by omega
    rw [BitVec.getLsbD_of_ge x (n + i) hw, Bool.and_false]

theorem msb_signExtend_of_le (h : w ≤ v) (x : BitVec w) : (x.signExtend v).msb = x.msb := by
  rw [BitVec.msb_eq_toInt, BitVec.msb_eq_toInt, BitVec.toInt_signExtend_of_le h]

/-- A right shift of the sign-extended form shifts in the sign. -/
theorem setWidth_sshiftRight_signExtend (h : w ≤ v) (x : BitVec w) (n : Nat) :
    ((x.signExtend v).sshiftRight n).setWidth w = x.sshiftRight n := by
  apply BitVec.eq_of_getLsbD_eq
  intro i hi
  have hv : ¬ v ≤ i := by omega
  have hw : ¬ w ≤ i := by omega
  simp only [BitVec.getLsbD_setWidth, BitVec.getLsbD_sshiftRight, BitVec.getLsbD_signExtend,
    msb_signExtend_of_le h, hi, hv, hw, decide_true, decide_false, Bool.not_false, Bool.true_and]
  by_cases hn : n + i < v
  · simp only [hn, if_true, decide_true, Bool.true_and]
  · have hn' : ¬ n + i < w := by omega
    simp only [hn, hn', if_false]

/-! ## Masks -/

/-- The low bits of the sign-extended form. -/
theorem toNat_signExtend_mod (h : w ≤ v) {n : Nat} (hn : n ≤ w) (x : BitVec w) :
    (x.signExtend v).toNat % 2 ^ n = x.toNat % 2 ^ n := by
  have hx : x.toNat = (x.signExtend v).toNat % 2 ^ w := by
    conv_lhs => rw [← setWidth_signExtend h x]
    exact BitVec.toNat_setWidth w _
  rw [hx, Nat.mod_mod_of_dvd _ (Nat.pow_dvd_pow 2 hn)]

/-- One less than a power of two is a mask. -/
theorem toNat_and_sub_one {n k : Nat} (h : k < n) (x : BitVec n) :
    (x &&& (.ofNat n (2 ^ k) - 1)).toNat = x.toNat % 2 ^ k := by
  have hlt : 2 ^ k < 2 ^ n := Nat.pow_lt_pow_right Nat.one_lt_two h
  have hone : (1 : BitVec n).toNat = 1 := BitVec.toNat_one (Nat.zero_lt_of_lt h)
  have hpow : (BitVec.ofNat n (2 ^ k)).toNat = 2 ^ k :=
    (BitVec.toNat_ofNat _ _).trans (Nat.mod_eq_of_lt hlt)
  have hle : (1 : BitVec n) ≤ .ofNat n (2 ^ k) := by
    rw [BitVec.le_def, hone, hpow]
    exact Nat.two_pow_pos k
  rw [BitVec.toNat_and, BitVec.toNat_sub_of_le hle, hone, hpow, Nat.and_two_pow_sub_one_eq_mod]

/-- Masking the sign-extended form gives the zero-extended one. -/
theorem signExtend_and_mask (h : w < v) (x : BitVec w) :
    x.signExtend v &&& (.ofNat v (2 ^ w) - 1) = x.setWidth v := by
  apply BitVec.eq_of_toNat_eq
  rw [toNat_and_sub_one h, toNat_signExtend_mod h.le le_rfl, Nat.mod_eq_of_lt x.isLt,
    BitVec.toNat_setWidth_of_le h.le]

/-! ## Comparisons -/

theorem slt_signExtend (h : w ≤ v) (x y : BitVec w) :
    (x.signExtend v).slt (y.signExtend v) = x.slt y := by
  rw [BitVec.slt_eq_decide, BitVec.slt_eq_decide, BitVec.toInt_signExtend_of_le h,
    BitVec.toInt_signExtend_of_le h]

theorem sle_signExtend (h : w ≤ v) (x y : BitVec w) :
    (x.signExtend v).sle (y.signExtend v) = x.sle y := by
  rw [BitVec.sle_eq_decide, BitVec.sle_eq_decide, BitVec.toInt_signExtend_of_le h,
    BitVec.toInt_signExtend_of_le h]

/-- Sign extension is monotone for the unsigned order too: it moves the upper half of the
range up by one constant. -/
theorem toNat_signExtend_le_iff (h : w ≤ v) (x y : BitVec w) :
    (x.signExtend v).toNat ≤ (y.signExtend v).toNat ↔ x.toNat ≤ y.toNat := by
  have hext (z : BitVec w) : (z.signExtend v).toNat =
      z.toNat + if 2 ^ (w - 1) ≤ z.toNat then 2 ^ v - 2 ^ w else 0 := by
    rw [BitVec.toNat_signExtend, BitVec.toNat_setWidth_of_le h, BitVec.msb_eq_decide]
    simp only [decide_eq_true_eq]
  rw [hext x, hext y]
  split <;> split <;> omega

theorem ule_signExtend (h : w ≤ v) (x y : BitVec w) :
    (x.signExtend v).ule (y.signExtend v) = x.ule y := by
  simp only [BitVec.ule_eq_decide, toNat_signExtend_le_iff h]

theorem ult_signExtend (h : w ≤ v) (x y : BitVec w) :
    (x.signExtend v).ult (y.signExtend v) = x.ult y := by
  simp only [BitVec.ult_eq_decide, ← Nat.not_le, toNat_signExtend_le_iff h]

/-! ## Division -/

/-- Truncation forgets multiples of the larger modulus. -/
theorem setWidth_ofInt (h : w ≤ v) (n : Int) : (BitVec.ofInt v n).setWidth w = .ofInt w n := by
  have hdvd : ((2 ^ w : Nat) : Int) ∣ ((2 ^ v : Nat) : Int) :=
    Int.natCast_dvd_natCast.mpr (Nat.pow_dvd_pow 2 h)
  have hpos : 0 ≤ n % ((2 ^ v : Nat) : Int) :=
    Int.emod_nonneg n (Int.natCast_ne_zero.mpr (Nat.two_pow_pos v).ne')
  apply BitVec.eq_of_toNat_eq
  rw [BitVec.toNat_setWidth, BitVec.toNat_ofInt, BitVec.toNat_ofInt,
    ← Int.emod_emod_of_dvd n hdvd, Int.toNat_emod hpos (Int.natCast_nonneg _), Int.toNat_natCast]

theorem setWidth_eq_ofInt (h : w ≤ v) (x : BitVec v) : x.setWidth w = .ofInt w x.toInt := by
  rw [← setWidth_ofInt h, BitVec.ofInt_toInt]

/-- The signed quotient of the sign-extended forms, cut back, is the quotient truncated
toward zero. -/
theorem setWidth_sdiv_signExtend (h : w ≤ v) (x y : BitVec w) :
    ((x.signExtend v).sdiv (y.signExtend v)).setWidth w = .ofInt w (x.toInt.tdiv y.toInt) := by
  have hofInt : (x.signExtend v).sdiv (y.signExtend v) =
      .ofInt v (x.toInt.tdiv y.toInt) := by
    apply BitVec.eq_of_toInt_eq
    rw [BitVec.toInt_sdiv, BitVec.toInt_signExtend_of_le h, BitVec.toInt_signExtend_of_le h,
      BitVec.toInt_ofInt]
  rw [hofInt, setWidth_ofInt h]

/-- The signed remainder of the sign-extended forms, cut back, has the sign of the dividend. -/
theorem setWidth_srem_signExtend (h : w ≤ v) (x y : BitVec w) :
    ((x.signExtend v).srem (y.signExtend v)).setWidth w = .ofInt w (x.toInt.tmod y.toInt) := by
  rw [setWidth_eq_ofInt h, BitVec.toInt_srem, BitVec.toInt_signExtend_of_le h,
    BitVec.toInt_signExtend_of_le h]

theorem setWidth_udiv_setWidth (h : w ≤ v) (x y : BitVec w) :
    (x.setWidth v / y.setWidth v).setWidth w = x / y := by
  apply BitVec.eq_of_toNat_eq
  rw [BitVec.toNat_setWidth, BitVec.toNat_udiv, BitVec.toNat_setWidth_of_le h,
    BitVec.toNat_setWidth_of_le h, BitVec.toNat_udiv]
  exact Nat.mod_eq_of_lt (Nat.lt_of_le_of_lt (Nat.div_le_self _ _) x.isLt)

theorem setWidth_umod_setWidth (h : w ≤ v) (x y : BitVec w) :
    (x.setWidth v % y.setWidth v).setWidth w = x % y := by
  apply BitVec.eq_of_toNat_eq
  rw [BitVec.toNat_setWidth, BitVec.toNat_umod, BitVec.toNat_setWidth_of_le h,
    BitVec.toNat_setWidth_of_le h, BitVec.toNat_umod]
  exact Nat.mod_eq_of_lt (Nat.lt_of_le_of_lt (Nat.mod_le _ _) x.isLt)

end LowerIrUtils.Bits
