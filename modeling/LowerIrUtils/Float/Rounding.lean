import LowerIrUtils.Float.Ieee754
import Mathlib.Algebra.Order.Field.Power
import Mathlib.Algebra.Order.Ring.Abs
import Mathlib.Data.Rat.Cast.Order
import Mathlib.Tactic.FieldSimp
import Mathlib.Tactic.Linarith
import Mathlib.Tactic.NormNum
import Mathlib.Tactic.Positivity
import Mathlib.Tactic.Ring

/-!
# Rounding to nearest

The pattern of a positive number is its rank among the numbers of the format: `value` is
strictly increasing, and `lt_roundRatio_iff` says that a pattern is passed in rounding
exactly when the midpoint above it is, or is met from an odd pattern.  Rounding is
determined by this law: it depends on the number alone (`roundRatio_congr`), and two
numbers on the same side of every midpoint are rounded alike.

So rounding to a wide format first does no harm if the number does not come too close to a
midpoint of the narrow one without being it (`Far`): that is `roundRatio_roundRatio`.
-/

namespace LowerIrUtils.Ieee754

/-! ## Powers of two -/

theorem zpow_two_pos (e : Int) : (0 : ℚ) < 2 ^ e := zpow_pos two_pos e

theorem zpow_two_add (e f : Int) : (2 : ℚ) ^ (e + f) = 2 ^ e * 2 ^ f :=
  zpow_add₀ two_ne_zero e f

theorem zpow_two_le {e f : Int} (h : e ≤ f) : (2 : ℚ) ^ e ≤ 2 ^ f :=
  zpow_le_zpow_right₀ one_le_two h

theorem zpow_two_toNat {e : Int} (h : 0 ≤ e) : ((2 ^ e.toNat : Nat) : ℚ) = 2 ^ e := by
  rw [Nat.cast_pow, Nat.cast_ofNat, ← zpow_natCast, Int.toNat_of_nonneg h]

/-- Scaling by an integer power of two with natural numbers only. -/
theorem div_toNat_eq (m : Nat) (d : Nat) (e : Int) :
    ((m * 2 ^ (-e).toNat : Nat) : ℚ) / (d * 2 ^ e.toNat : Nat) = m / d / 2 ^ e := by
  rcases Int.le_total 0 e with h | h
  · rw [Int.toNat_of_nonpos (Int.neg_nonpos_of_nonneg h), Nat.cast_mul, Nat.cast_mul,
      zpow_two_toNat h, pow_zero, Nat.cast_one, mul_one, div_div]
  · rw [Int.toNat_of_nonpos h, Nat.cast_mul, Nat.cast_mul,
      zpow_two_toNat (Int.neg_nonneg_of_nonpos h), pow_zero, Nat.cast_one, mul_one, zpow_neg]
    have := zpow_two_pos e
    field_simp

/-! ## The numbers of a format -/

variable (F : Format)

/-- The distance from the number with the pattern `n` to the next one, in units of the last
place of the subnormal numbers. -/
def ulp (n : Nat) : Nat := 2 ^ (n / 2 ^ F.fracBits - 1)

/-- The positive number with the pattern `n`, in units of the last place of the subnormal
numbers. -/
def units (n : Nat) : Nat :=
  if n < 2 ^ F.fracBits then n
  else (2 ^ F.fracBits + n % 2 ^ F.fracBits) * ulp F n

/-- The positive number with the pattern `n`. -/
def value (n : Nat) : ℚ := units F n * 2 ^ F.emin

/-- A significand of `fracBits + 1` digits, or of any number of digits if the exponent is the
least one. -/
structure Digits (s q : Nat) : Prop where
  lt : q < 2 ^ (F.fracBits + 1)
  normal : s = 0 ∨ 2 ^ F.fracBits ≤ q

variable {F}

theorem units_of_lt {n : Nat} (h : n < 2 ^ F.fracBits) : units F n = n := if_pos h

/-- The pattern of a significand and an exponent, where the significand may also have been
carried over. -/
theorem units_mk {s q : Nat} (hle : q ≤ 2 ^ (F.fracBits + 1)) (hs : s = 0 ∨ 2 ^ F.fracBits ≤ q) :
    units F (s * 2 ^ F.fracBits + q) = q * 2 ^ s := by
  have hpow : 2 ^ (F.fracBits + 1) = 2 * 2 ^ F.fracBits := by rw [pow_succ, mul_comm]
  have hpos : 0 < 2 ^ F.fracBits := Nat.two_pow_pos _
  rw [hpow] at hle
  generalize hB : 2 ^ F.fracBits = B at *
  rcases Nat.lt_or_ge q B with hq | hq
  · -- a subnormal number
    obtain rfl : s = 0 := hs.resolve_right (Nat.not_le_of_lt hq)
    rw [zero_mul, zero_add, pow_zero, mul_one]
    exact units_of_lt (hB.symm ▸ hq)
  · have hnot : ¬ s * B + q < B := by
      have := Nat.zero_le (s * B)
      omega
    rw [units, hB, if_neg hnot, ulp, hB]
    rcases Nat.lt_or_ge q (2 * B) with hq2 | hq2
    · obtain ⟨f, rfl⟩ := Nat.exists_eq_add_of_le hq
      have hf : f < B := by omega
      have hn : s * B + (B + f) = B * (s + 1) + f := by ring
      rw [hn, Nat.mul_add_mod, Nat.mod_eq_of_lt hf, Nat.mul_add_div hpos,
        Nat.div_eq_of_lt hf, Nat.add_zero, Nat.add_sub_cancel]
    · obtain rfl : q = 2 * B := Nat.le_antisymm hle hq2
      have hn : s * B + 2 * B = B * (s + 2) := by ring
      rw [hn, Nat.mul_mod_right, Nat.mul_div_cancel_left _ hpos]
      show (B + 0) * 2 ^ (s + 1) = _
      rw [pow_succ]
      ring

/-- Every pattern is one of a significand and an exponent. -/
theorem exists_digits (n : Nat) : ∃ s q, n = s * 2 ^ F.fracBits + q ∧ Digits F s q := by
  have hpow : 2 ^ (F.fracBits + 1) = 2 * 2 ^ F.fracBits := by rw [pow_succ, mul_comm]
  have hpos : 0 < 2 ^ F.fracBits := Nat.two_pow_pos _
  have hdiv := Nat.div_add_mod n (2 ^ F.fracBits)
  have hmod := Nat.mod_lt n hpos
  cases hE : n / 2 ^ F.fracBits with
  | zero =>
      rw [hE, Nat.mul_zero, Nat.zero_add] at hdiv
      exact ⟨0, n, by rw [zero_mul, zero_add], by rw [hpow]; omega, .inl rfl⟩
  | succ s =>
      rw [hE] at hdiv
      refine ⟨s, 2 ^ F.fracBits + n % 2 ^ F.fracBits, ?_, ?_, .inr (Nat.le_add_right _ _)⟩
      · rw [← hdiv, Nat.mul_add_mod, Nat.mod_mod]
        ring
      · rw [hpow]
        omega

namespace Digits

variable {s q : Nat}

theorem units (h : Digits F s q) : units F (s * 2 ^ F.fracBits + q) = q * 2 ^ s :=
  units_mk h.lt.le h.normal

theorem units_succ (h : Digits F s q) :
    Ieee754.units F (s * 2 ^ F.fracBits + q + 1) = (q + 1) * 2 ^ s :=
  units_mk h.lt (h.normal.imp_right Nat.le_succ_of_le)

theorem ulp (h : Digits F s q) : ulp F (s * 2 ^ F.fracBits + q) = 2 ^ s := by
  have hpow : 2 ^ (F.fracBits + 1) = 2 * 2 ^ F.fracBits := by rw [pow_succ, mul_comm]
  have hlt := h.lt
  rw [hpow] at hlt
  rw [Ieee754.ulp, mul_comm, Nat.mul_add_div (Nat.two_pow_pos _)]
  rcases Nat.lt_or_ge q (2 ^ F.fracBits) with hq | hq
  · rw [h.normal.resolve_right (Nat.not_le_of_lt hq), Nat.div_eq_of_lt hq]
  · rw [Nat.div_eq_of_lt_le (k := 1) (by rwa [one_mul]) hlt, Nat.add_sub_cancel]

end Digits

theorem units_succ (n : Nat) : units F (n + 1) = units F n + ulp F n := by
  obtain ⟨s, q, rfl, h⟩ := exists_digits (F := F) n
  rw [h.units_succ, h.units, h.ulp]
  ring

theorem strictMono_units : StrictMono (units F) := by
  refine strictMono_nat_of_lt_succ fun n ↦ ?_
  rw [units_succ]
  exact Nat.lt_add_of_pos_right (Nat.two_pow_pos _)

theorem strictMono_value : StrictMono (value F) := fun _ _ h ↦
  mul_lt_mul_of_pos_right (Nat.cast_lt.mpr (strictMono_units h)) (zpow_two_pos _)

theorem value_zero : value F 0 = 0 := by
  rw [value, units_of_lt (Nat.two_pow_pos _), Nat.cast_zero, zero_mul]

theorem value_nonneg (n : Nat) : 0 ≤ value F n :=
  mul_nonneg (Nat.cast_nonneg _) (zpow_two_pos _).le

theorem value_succ (n : Nat) : value F (n + 1) = value F n + ulp F n * 2 ^ F.emin := by
  rw [value, units_succ, Nat.cast_add, add_mul]
  rfl

/-! ## Rounding -/

/-- Twice the midpoint between the numbers with the patterns `k` and `k + 1`. -/
def mid (F : Format) (k : Nat) : ℚ := value F k + value F (k + 1)

/-- Rounding `x` to nearest, ties to even, passes the pattern `k`. -/
def Above (F : Format) (x : ℚ) (k : Nat) : Prop :=
  mid F k < 2 * x ∨ (mid F k = 2 * x ∧ k % 2 = 1)

theorem mid_pos (k : Nat) : 0 < mid F k :=
  add_pos_of_nonneg_of_pos (value_nonneg k) (value_zero (F := F) ▸ strictMono_value k.succ_pos)

theorem Digits.mid {s q : Nat} (h : Digits F s q) :
    mid F (s * 2 ^ F.fracBits + q) = (2 * q + 1) * 2 ^ (F.emin + s) := by
  rw [Ieee754.mid, value, value, h.units, h.units_succ, zpow_two_add, zpow_natCast]
  push_cast
  ring

section

variable {n d : Nat}

theorem natCast_div_le_lt (hd : 0 < d) :
    ((n / d : Nat) : ℚ) ≤ n / d ∧ (n : ℚ) / d < (n / d : Nat) + 1 := by
  have hd' : (0 : ℚ) < d := Nat.cast_pos.mpr hd
  constructor
  · rw [le_div_iff₀ hd']
    exact_mod_cast Nat.div_mul_le_self n d
  · rw [div_lt_iff₀ hd']
    exact_mod_cast Nat.lt_mul_of_div_lt (Nat.lt_succ_self (n / d)) hd

/-- The comparisons of twice the remainder with the divisor. -/
theorem remainder_iff (hd : 0 < d) :
    (d < 2 * (n % d) ↔ (2 * (n / d : Nat) + 1 : ℚ) < 2 * (n / d)) ∧
      (2 * (n % d) = d ↔ (2 * (n / d : Nat) + 1 : ℚ) = 2 * (n / d)) := by
  have hd' : (0 : ℚ) < d := Nat.cast_pos.mpr hd
  have hn : (n : ℚ) = d * (n / d : Nat) + (n % d : Nat) := by
    exact_mod_cast (Nat.div_add_mod n d).symm
  have hx : 2 * ((n : ℚ) / d) - (2 * (n / d : Nat) + 1) = (2 * (n % d : Nat) - d) / d := by
    rw [hn]
    field_simp
    ring
  have hpos : 0 < 2 * ((n : ℚ) / d) - (2 * (n / d : Nat) + 1) ↔
      0 < 2 * (n % d : Nat) - (d : ℚ) := by
    rw [hx, div_pos_iff_of_pos_right hd']
  have hzero : 2 * ((n : ℚ) / d) - (2 * (n / d : Nat) + 1) = 0 ↔
      2 * (n % d : Nat) - (d : ℚ) = 0 := by
    rw [hx, div_eq_zero_iff, or_iff_left hd'.ne']
  constructor
  · rw [← sub_pos (a := 2 * ((n : ℚ) / d)), hpos, sub_pos]
    norm_cast
  · rw [eq_comm (b := 2 * ((n : ℚ) / d)), ← sub_eq_zero (a := 2 * ((n : ℚ) / d)), hzero,
      sub_eq_zero]
    norm_cast

end

section

variable {num den : Nat}

/-- A ratio lies between the powers of two given by the lengths of its terms. -/
theorem ratio_bounds (hnum : num ≠ 0) (hden : den ≠ 0) :
    (2 : ℚ) ^ ((num.log2 : Int) - den.log2 - 1) < num / den ∧
      (num / den : ℚ) < 2 ^ ((num.log2 : Int) - den.log2 + 1) := by
  have hden' : (0 : ℚ) < den := Nat.cast_pos.mpr (Nat.pos_of_ne_zero hden)
  have hnum_lo : (2 : ℚ) ^ (num.log2 : Int) ≤ num := by exact_mod_cast Nat.log2_self_le hnum
  have hnum_hi : (num : ℚ) < 2 ^ ((num.log2 : Int) + 1) := by
    exact_mod_cast Nat.lt_log2_self (n := num)
  have hden_lo : (2 : ℚ) ^ (den.log2 : Int) ≤ den := by exact_mod_cast Nat.log2_self_le hden
  have hden_hi : (den : ℚ) < 2 ^ ((den.log2 : Int) + 1) := by
    exact_mod_cast Nat.lt_log2_self (n := den)
  constructor
  · rw [lt_div_iff₀ hden']
    calc (2 : ℚ) ^ ((num.log2 : Int) - den.log2 - 1) * den
        < 2 ^ ((num.log2 : Int) - den.log2 - 1) * 2 ^ ((den.log2 : Int) + 1) :=
          mul_lt_mul_of_pos_left hden_hi (zpow_two_pos _)
      _ = 2 ^ (num.log2 : Int) := by
          rw [← zpow_two_add]
          congr 1
          ring
      _ ≤ num := hnum_lo
  · rw [div_lt_iff₀ hden']
    calc (num : ℚ) < 2 ^ ((num.log2 : Int) + 1) := hnum_hi
      _ = 2 ^ ((num.log2 : Int) - den.log2 + 1) * 2 ^ (den.log2 : Int) := by
          rw [← zpow_two_add]
          congr 1
          ring
      _ ≤ _ := mul_le_mul_of_nonneg_left hden_lo (zpow_two_pos _).le

/-- The exponent at which a ratio has `fracBits + 1` digits. -/
theorem exponent_spec (hnum : num ≠ 0) (hden : den ≠ 0) {e₀ e₁ : Int}
    (he₀ : e₀ = (num.log2 : Int) - den.log2 - F.fracBits)
    (he₁ : e₁ = if num * 2 ^ (-e₀).toNat < 2 ^ F.fracBits * (den * 2 ^ e₀.toNat) then e₀ - 1
      else e₀) :
    (2 : ℚ) ^ F.fracBits ≤ num / den / 2 ^ e₁ ∧
      (num / den / 2 ^ e₁ : ℚ) < 2 ^ (F.fracBits + 1) := by
  obtain ⟨hlo, hhi⟩ := ratio_bounds hnum hden
  have hd : (0 : ℚ) < (den * 2 ^ e₀.toNat : Nat) :=
    Nat.cast_pos.mpr (Nat.mul_pos (Nat.pos_of_ne_zero hden) (Nat.two_pow_pos _))
  have hpow₀ := zpow_two_pos e₀
  have hcond : num * 2 ^ (-e₀).toNat < 2 ^ F.fracBits * (den * 2 ^ e₀.toNat) ↔
      (num / den / 2 ^ e₀ : ℚ) < 2 ^ F.fracBits := by
    rw [← div_toNat_eq, div_lt_iff₀ hd]
    norm_cast
  have hlo₀ : (2 : ℚ) ^ F.fracBits < 2 * (num / den / 2 ^ e₀) := by
    have hsplit : (2 : ℚ) ^ ((num.log2 : Int) - den.log2 - 1) * 2 = 2 ^ F.fracBits * 2 ^ e₀ := by
      rw [← zpow_natCast, ← zpow_two_add, ← zpow_add_one₀ two_ne_zero]
      congr 1
      omega
    rw [← mul_div_assoc, lt_div_iff₀ hpow₀, ← hsplit, mul_comm]
    exact mul_lt_mul_of_pos_left hlo two_pos
  have hhi₀ : (num / den / 2 ^ e₀ : ℚ) < 2 ^ (F.fracBits + 1) := by
    rw [div_lt_iff₀ hpow₀, ← zpow_natCast, ← zpow_two_add]
    refine hhi.trans_le (zpow_two_le ?_)
    push_cast
    omega
  by_cases hlt : (num / den / 2 ^ e₀ : ℚ) < 2 ^ F.fracBits
  · rw [if_pos (hcond.mpr hlt)] at he₁
    have hpred : (num / den / 2 ^ e₁ : ℚ) = 2 * (num / den / 2 ^ e₀) := by
      rw [he₁, zpow_sub_one₀ two_ne_zero]
      field_simp
    rw [hpred, pow_succ, mul_comm ((2 : ℚ) ^ F.fracBits)]
    exact ⟨hlo₀.le, mul_lt_mul_of_pos_left hlt two_pos⟩
  · rw [if_neg (mt hcond.mp hlt)] at he₁
    rw [he₁]
    exact ⟨not_lt.mp hlt, hhi₀⟩

/-- Rounding chooses between the two numbers that a ratio lies between. -/
theorem exists_roundRatio (hfrac : 0 < F.fracBits) (hnum : num ≠ 0) (hden : den ≠ 0) :
    ∃ p, value F p ≤ num / den ∧ (num / den : ℚ) < value F (p + 1) ∧
      ((Above F (num / den) p ∧ roundRatio F num den = min (p + 1) F.infBits) ∨
        (¬ Above F (num / den) p ∧ roundRatio F num den = min p F.infBits)) := by
  unfold roundRatio
  rw [if_neg hnum]
  extract_lets e₀ e₁ e n d q r q'
  obtain ⟨hlo, hhi⟩ := exponent_spec (F := F) hnum hden rfl rfl
  have hd : 0 < d := Nat.mul_pos (Nat.pos_of_ne_zero hden) (Nat.two_pow_pos _)
  have hnd : (n : ℚ) / d = num / den / 2 ^ e := div_toNat_eq num den e
  obtain ⟨hq_le, hq_lt⟩ := natCast_div_le_lt (n := n) hd
  obtain ⟨hlt_iff, heq_iff⟩ := remainder_iff (n := n) hd
  rw [hnd] at hq_le hq_lt hlt_iff heq_iff
  generalize (num / den : ℚ) = x at *
  have hmin : F.emin ≤ e := Int.le_max_right _ _
  obtain ⟨s, hs⟩ : ∃ s : Nat, (e - F.emin).toNat = s := ⟨_, rfl⟩
  have he : F.emin + s = e := by omega
  have hpow := zpow_two_pos e
  have hx : 0 ≤ x := by
    by_contra hneg
    have := div_neg_of_neg_of_pos (not_le.mp hneg) hpow
    have hq : (0 : ℚ) ≤ (n / d : Nat) := Nat.cast_nonneg _
    linarith
  have hdigits : Digits F s q := by
    constructor
    · have hle : x / 2 ^ e ≤ x / 2 ^ e₁ :=
        div_le_div_of_nonneg_left hx (zpow_two_pos _) (zpow_two_le (Int.le_max_left _ _))
      have hlt : (q : ℚ) < 2 ^ (F.fracBits + 1) := lt_of_le_of_lt (hq_le.trans hle) hhi
      exact_mod_cast hlt
    · rcases Int.le_total e₁ F.emin with hle | hle
      · left
        rw [← hs, show e = F.emin from Int.max_eq_right hle, Int.sub_self]
        rfl
      · right
        rw [show e = e₁ from Int.max_eq_left hle] at hq_lt
        have hlt : (2 : ℚ) ^ F.fracBits < q + 1 := lt_of_le_of_lt hlo hq_lt
        have hlt' : 2 ^ F.fracBits < q + 1 := by exact_mod_cast hlt
        exact Nat.le_of_lt_succ hlt'
  have hvalue : value F (s * 2 ^ F.fracBits + q) = q * 2 ^ e := by
    rw [value, hdigits.units, ← he, zpow_two_add, zpow_natCast]
    push_cast
    ring
  have hvalue' : value F (s * 2 ^ F.fracBits + q + 1) = (q + 1) * 2 ^ e := by
    rw [value, hdigits.units_succ, ← he, zpow_two_add, zpow_natCast]
    push_cast
    ring
  have hmid : mid F (s * 2 ^ F.fracBits + q) = (2 * q + 1) * 2 ^ e := by rw [hdigits.mid, he]
  -- the significand is as odd as the pattern
  have hodd : (s * 2 ^ F.fracBits + q) % 2 = q % 2 := by
    obtain ⟨k, hk⟩ := Nat.exists_eq_succ_of_ne_zero hfrac.ne'
    rw [hk, pow_succ, ← Nat.mul_assoc, Nat.mul_comm, Nat.mul_add_mod]
  have habove : Above F x (s * 2 ^ F.fracBits + q) ↔ d < 2 * r ∨ (2 * r = d ∧ q % 2 = 1) := by
    rw [Above, hmid, hodd, ← lt_div_iff₀ hpow, ← eq_div_iff hpow.ne', mul_div_assoc]
    exact or_congr hlt_iff.symm (and_congr_left' heq_iff.symm)
  refine ⟨s * 2 ^ F.fracBits + q, ?_, ?_, ?_⟩
  · rw [hvalue]
    exact (le_div_iff₀ hpow).mp hq_le
  · rw [hvalue']
    exact (div_lt_iff₀ hpow).mp hq_lt
  · rw [habove, hs]
    by_cases hup : d < 2 * r ∨ (2 * r = d ∧ q % 2 = 1)
    · exact .inl ⟨hup, by rw [show q' = q + 1 from if_pos hup, Nat.add_assoc]⟩
    · exact .inr ⟨hup, by rw [show q' = q from if_neg hup]⟩

/-- **Rounding to nearest, ties to even.**  A pattern is passed exactly when the midpoint
above it is, or is met from an odd pattern. -/
theorem lt_roundRatio_iff (hfrac : 0 < F.fracBits) (hden : den ≠ 0) {k : Nat}
    (hk : k < F.infBits) : k < roundRatio F num den ↔ Above F (num / den) k := by
  rcases Nat.eq_zero_or_pos num with rfl | hnum
  · have hround : roundRatio F 0 den = 0 := if_pos rfl
    rw [hround, Above, Nat.cast_zero, zero_div, mul_zero]
    have := mid_pos (F := F) k
    constructor
    · intro h
      exact absurd h (Nat.not_lt_zero k)
    · rintro (h | ⟨h, -⟩) <;> linarith
  · obtain ⟨p, hle, hlt, hround⟩ := exists_roundRatio hfrac hnum.ne' hden
    rcases lt_trichotomy k p with hkp | rfl | hkp
    · have hmid : mid F k < 2 * (num / den) := by
        have h₁ := strictMono_value (F := F) hkp
        have h₂ := strictMono_value (F := F).monotone (Nat.succ_le_of_lt hkp)
        rw [mid]
        linarith
      refine iff_of_true ?_ (.inl hmid)
      rcases hround with ⟨-, h⟩ | ⟨-, h⟩ <;> omega
    · rcases hround with ⟨hup, h⟩ | ⟨hup, h⟩
      · exact iff_of_true (by omega) hup
      · exact iff_of_false (by omega) hup
    · have hmid : 2 * (num / den) < mid F k := by
        have h₁ := strictMono_value (F := F).monotone (Nat.succ_le_of_lt hkp)
        have h₂ := strictMono_value (F := F) (Nat.lt_succ_of_le (Nat.succ_le_of_lt hkp))
        rw [mid]
        linarith
      refine iff_of_false ?_ ?_
      · rcases hround with ⟨-, h⟩ | ⟨-, h⟩ <;> omega
      · rintro (h | ⟨h, -⟩) <;> linarith

theorem roundRatio_le (num den : Nat) : roundRatio F num den ≤ F.infBits := by
  unfold roundRatio
  split
  · exact Nat.zero_le _
  · exact Nat.min_le_right _ _

end

/-! ## Rounding depends on the number alone -/

section

variable {num den num' den' : Nat}

theorem roundRatio_eq_of_above (hfrac : 0 < F.fracBits) (hden : den ≠ 0) (hden' : den' ≠ 0)
    (h : ∀ k < F.infBits, Above F (num / den) k ↔ Above F (num' / den') k) :
    roundRatio F num den = roundRatio F num' den' := by
  have hle := roundRatio_le (F := F) num den
  have hle' := roundRatio_le (F := F) num' den'
  have hlt (k : Nat) (hk : k < F.infBits) :
      k < roundRatio F num den ↔ k < roundRatio F num' den' := by
    rw [lt_roundRatio_iff hfrac hden hk, lt_roundRatio_iff hfrac hden' hk, h k hk]
  rcases lt_trichotomy (roundRatio F num den) (roundRatio F num' den') with h | h | h
  · exact absurd ((hlt _ (h.trans_le hle')).mpr h) (Nat.lt_irrefl _)
  · exact h
  · exact absurd ((hlt _ (h.trans_le hle)).mp h) (Nat.lt_irrefl _)

theorem roundRatio_congr (hfrac : 0 < F.fracBits) (hden : den ≠ 0) (hden' : den' ≠ 0)
    (h : (num / den : ℚ) = num' / den') : roundRatio F num den = roundRatio F num' den' :=
  roundRatio_eq_of_above hfrac hden hden' fun k _ ↦ by rw [h]

/-- A number of the format is not changed. -/
theorem above_value_iff {n k : Nat} : Above F (value F n) k ↔ k < n := by
  have hmono := strictMono_value (F := F)
  rw [Above, mid]
  rcases Nat.lt_or_ge k n with h | h
  · have h₁ := hmono h
    have h₂ := hmono.monotone (Nat.succ_le_of_lt h)
    exact iff_of_true (.inl (by linarith)) h
  · have h₁ := hmono.monotone h
    have h₂ := hmono (Nat.lt_succ_of_le h)
    refine iff_of_false ?_ (Nat.not_lt_of_le h)
    rintro (h | ⟨h, -⟩) <;> linarith

theorem roundRatio_of_value (hfrac : 0 < F.fracBits) (hden : den ≠ 0) {n : Nat}
    (hn : n ≤ F.infBits) (h : (num / den : ℚ) = value F n) : roundRatio F num den = n := by
  have hle := roundRatio_le (F := F) num den
  have hlt (k : Nat) (hk : k < F.infBits) : k < roundRatio F num den ↔ k < n := by
    rw [lt_roundRatio_iff hfrac hden hk, h, above_value_iff]
  rcases lt_trichotomy (roundRatio F num den) n with h | h | h
  · exact absurd ((hlt _ (h.trans_le hn)).mpr h) (Nat.lt_irrefl _)
  · exact h
  · exact absurd ((hlt _ (h.trans_le hle)).mp h) (Nat.lt_irrefl _)

end

/-! ## Rounding twice -/

/-- `x` is `m`, or further from it than half a unit in the last of `b + 1` digits. -/
def Far (b : Nat) (m x : ℚ) : Prop := x = m ∨ m < 2 ^ (b + 1) * |x - m|

/-- `W` has more than twice the digits of `G`, and room for its exponents. -/
structure DoubleWide (W G : Format) : Prop where
  pos : 0 < G.fracBits
  fracBits : 2 * G.fracBits + 3 ≤ W.fracBits
  emin : W.emin + W.fracBits + 1 ≤ G.emin
  range : G.emin - W.emin + 2 ^ G.expBits + 1 ≤ 2 ^ W.expBits

/-- Between normal numbers there is at most one unit in the last place. -/
theorem ulp_mul_le_value {n : Nat} (hn : 2 ^ F.fracBits ≤ n) :
    2 ^ F.fracBits * (ulp F n * 2 ^ F.emin) ≤ value F n := by
  rw [value, units, if_neg (Nat.not_lt_of_le hn), ← mul_assoc]
  refine mul_le_mul_of_nonneg_right ?_ (zpow_two_pos _).le
  push_cast
  exact mul_le_mul_of_nonneg_right (le_add_of_nonneg_right (Nat.cast_nonneg _)) (Nat.cast_nonneg _)

theorem ulp_mono {m n : Nat} (h : m ≤ n) : ulp F m ≤ ulp F n :=
  Nat.pow_le_pow_right two_pos (Nat.sub_le_sub_right (Nat.div_le_div_right h) 1)

section

variable {num den : Nat}

/-- A number far from one of the format is rounded to the same side of it. -/
theorem roundRatio_order (hfrac : 0 < F.fracBits) (hden : den ≠ 0) {n : Nat}
    (hn : 2 ^ F.fracBits ≤ n) (hinf : n < F.infBits)
    (hfar : Far F.fracBits (2 * value F n) (2 * (num / den))) :
    (n < roundRatio F num den ↔ value F n < num / den) ∧
      (roundRatio F num den < n ↔ (num / den : ℚ) < value F n) := by
  have hulp := ulp_mul_le_value hn
  have hpow : (0 : ℚ) < 2 ^ F.fracBits := pow_pos two_pos _
  have hpos : 0 < n := lt_of_lt_of_le (Nat.two_pow_pos _) hn
  have hgap : 0 < (ulp F n : ℚ) * 2 ^ F.emin :=
    mul_pos (Nat.cast_pos.mpr (Nat.two_pow_pos _)) (zpow_two_pos _)
  -- what is far from the number is further from it than the midpoints around it
  have hdist (h : (num / den : ℚ) ≠ value F n) :
      ulp F n * 2 ^ F.emin < 2 * |(num / den : ℚ) - value F n| := by
    rcases hfar with heq | hlt
    · exact absurd (mul_left_cancel₀ two_ne_zero heq) h
    · rw [← mul_sub, abs_mul, abs_of_pos (two_pos : (0 : ℚ) < 2), pow_succ] at hlt
      refine lt_of_mul_lt_mul_left (lt_of_le_of_lt hulp ?_) hpow.le
      linarith
  constructor
  · rw [lt_roundRatio_iff hfrac hden hinf, Above, mid, value_succ]
    constructor
    · rintro (h | ⟨h, -⟩) <;> linarith
    · intro h
      have hd := hdist h.ne'
      rw [abs_of_pos (sub_pos.mpr h)] at hd
      exact .inl (by linarith)
  · obtain ⟨k, rfl⟩ := Nat.exists_eq_succ_of_ne_zero hpos.ne'
    have hle : roundRatio F num den < k + 1 ↔ ¬ k < roundRatio F num den := by omega
    have hprev := value_succ (F := F) k
    have hulp_le : (ulp F k : ℚ) * 2 ^ F.emin ≤ ulp F (k + 1) * 2 ^ F.emin :=
      mul_le_mul_of_nonneg_right (Nat.cast_le.mpr (ulp_mono k.le_succ)) (zpow_two_pos _).le
    have hulp_pos : 0 < (ulp F k : ℚ) * 2 ^ F.emin :=
      mul_pos (Nat.cast_pos.mpr (Nat.two_pow_pos _)) (zpow_two_pos _)
    rw [hle, lt_roundRatio_iff hfrac hden (k.lt_succ_self.trans hinf), Above, mid]
    constructor
    · intro h
      by_contra hge
      exact h (.inl (by linarith))
    · intro h
      have hd := hdist h.ne
      rw [abs_of_neg (sub_neg.mpr h)] at hd
      rintro (h | ⟨h, -⟩) <;> linarith

end

/-- A short significand is one of a normal number, if the exponents leave room to shift it. -/
theorem exists_value_eq {m : Nat} {e : Int} (hm : m ≠ 0) (hlt : m < 2 ^ (F.fracBits + 1))
    (hlo : F.emin + F.fracBits ≤ e) (hhi : e - F.emin + 3 ≤ 2 ^ F.expBits) :
    ∃ n, 2 ^ F.fracBits ≤ n ∧ n < F.infBits ∧ value F n = m * 2 ^ e := by
  have hlog : m.log2 ≤ F.fracBits := Nat.le_of_lt_succ ((Nat.log2_lt hm).mpr hlt)
  obtain ⟨u, hu⟩ : ∃ u, m.log2 + u = F.fracBits := ⟨_, Nat.add_sub_cancel' hlog⟩
  have hge : 2 ^ F.fracBits ≤ m * 2 ^ u := by
    rw [← hu, pow_add]
    exact Nat.mul_le_mul_right _ (Nat.log2_self_le hm)
  have hlt' : m * 2 ^ u < 2 ^ (F.fracBits + 1) := by
    rw [← hu, Nat.add_right_comm, pow_add]
    exact Nat.mul_lt_mul_of_pos_right Nat.lt_log2_self (Nat.two_pow_pos _)
  obtain ⟨s, hs⟩ : ∃ s : Nat, F.emin + s + u = e := ⟨(e - u - F.emin).toNat, by omega⟩
  have hdigits : Digits F s (m * 2 ^ u) := ⟨hlt', .inr hge⟩
  refine ⟨s * 2 ^ F.fracBits + m * 2 ^ u, hge.trans (Nat.le_add_left _ _), ?_, ?_⟩
  · have hs : s + 2 ≤ 2 ^ F.expBits - 1 := by
      have hcast : ((2 ^ F.expBits : Nat) : Int) = 2 ^ F.expBits := by norm_cast
      omega
    rw [pow_succ] at hlt'
    calc s * 2 ^ F.fracBits + m * 2 ^ u
        < s * 2 ^ F.fracBits + 2 ^ F.fracBits * 2 := Nat.add_lt_add_left hlt' _
      _ = (s + 2) * 2 ^ F.fracBits := by ring
      _ ≤ F.infBits := Nat.mul_le_mul_right _ hs
  · rw [value, hdigits.units, ← hs, zpow_two_add, zpow_two_add, zpow_natCast, zpow_natCast]
    push_cast
    ring

namespace DoubleWide

variable {W G : Format}

theorem pos_wide (h : DoubleWide W G) : 0 < W.fracBits := by
  have := h.fracBits
  omega

/-- A number of the narrow format, or of one digit more, is a normal number of the wide one. -/
theorem exists_value_eq (h : DoubleWide W G) {m : Nat} {e : Int} (hm : m ≠ 0)
    (hlt : m < 2 ^ (G.fracBits + 2)) (hlo : G.emin - 1 ≤ e)
    (hhi : e + 2 ≤ G.emin + 2 ^ G.expBits) :
    ∃ n, 2 ^ W.fracBits ≤ n ∧ n < W.infBits ∧ value W n = m * 2 ^ e := by
  obtain ⟨-, hfrac, hemin, hrange⟩ := h
  refine Ieee754.exists_value_eq hm (hlt.trans_le ?_) ?_ ?_
  · exact Nat.pow_le_pow_right two_pos (by omega)
  · omega
  · omega

/-- A midpoint of the narrow format is a normal number of the wide one. -/
theorem exists_value_eq_mid (h : DoubleWide W G) {k : Nat} (hk : k < G.infBits) :
    ∃ n, 2 ^ W.fracBits ≤ n ∧ n < W.infBits ∧ 2 * value W n = mid G k := by
  obtain ⟨s, q, rfl, hq⟩ := exists_digits (F := G) k
  have hs : s + 2 ≤ 2 ^ G.expBits := by
    have hlt : s * 2 ^ G.fracBits < (2 ^ G.expBits - 1) * 2 ^ G.fracBits :=
      lt_of_le_of_lt (Nat.le_add_right _ _) hk
    have := Nat.lt_of_mul_lt_mul_right hlt
    omega
  have hs' : (s : Int) + 2 ≤ 2 ^ G.expBits := by exact_mod_cast hs
  have hlt : 2 * q + 1 < 2 ^ (G.fracBits + 2) := by
    have := hq.lt
    rw [pow_succ 2 (G.fracBits + 1)]
    omega
  obtain ⟨n, hn, hinf, hvalue⟩ :=
    h.exists_value_eq (e := G.emin + s - 1) (Nat.succ_ne_zero (2 * q)) hlt (by omega) (by omega)
  refine ⟨n, hn, hinf, ?_⟩
  rw [hvalue, hq.mid, zpow_sub_one₀ two_ne_zero]
  push_cast
  ring

/-- **Rounding twice is rounding once**, for a number that is far from the midpoints of the
narrow format, or one of them. -/
theorem roundRatio_roundRatio (h : DoubleWide W G) {num den num' den' : Nat} (hden : den ≠ 0)
    (hden' : den' ≠ 0)
    (hfar : ∀ k < G.infBits, Far W.fracBits (mid G k) (2 * (num / den)))
    (hvalue : (num' / den' : ℚ) = value W (roundRatio W num den)) :
    roundRatio G num' den' = roundRatio G num den := by
  have hmono := strictMono_value (F := W)
  refine roundRatio_eq_of_above h.pos hden' hden fun k hk ↦ ?_
  obtain ⟨n, hn, hinf, hmid⟩ := h.exists_value_eq_mid hk
  have hfar' := hfar k hk
  rw [← hmid] at hfar'
  obtain ⟨hlt, hgt⟩ := roundRatio_order h.pos_wide hden hn hinf hfar'
  rw [hvalue, Above, Above, ← hmid, mul_lt_mul_iff_right₀ two_pos, mul_lt_mul_iff_right₀ two_pos,
    mul_right_inj' two_ne_zero, mul_right_inj' two_ne_zero, hmono.lt_iff_lt, hlt,
    hmono.injective.eq_iff]
  refine or_congr_right (and_congr_left' ?_)
  constructor
  · intro heq
    refine le_antisymm ?_ ?_
    · exact not_lt.mp fun h ↦ (hgt.mpr h).ne heq.symm
    · exact not_lt.mp fun h ↦ (hlt.mpr h).ne heq
  · intro heq
    refine Nat.le_antisymm ?_ ?_
    · exact not_lt.mp fun h ↦ (hgt.mp h).ne heq.symm
    · exact not_lt.mp fun h ↦ (hlt.mp h).ne heq

end DoubleWide

end LowerIrUtils.Ieee754
