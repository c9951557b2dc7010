import LowerIrUtils.Float.Rounding

/-!
# Data and patterns

Two data are the same if they stand for the same number, whatever significand and exponent
they have; the operations and `encode` do not tell such data apart.  `decode` takes a
pattern that has been given a sign back to its value, so that encoding and decoding are
inverse up to the rounding.
-/

namespace LowerIrUtils.Ieee754

/-! ## Data and the numbers they stand for -/

/-- The number of a finite datum with its sign. -/
def signed (neg : Bool) (m : Nat) (e : Int) : ℚ := (if neg then -1 else 1) * (m * 2 ^ e)

theorem scaled_mul {neg : Bool} {m : Nat} {e g : Int} (h : g ≤ e) :
    (scaled neg m e g : ℚ) * 2 ^ g = signed neg m e := by
  have hpow : ((m * 2 ^ (e - g).toNat : Nat) : ℚ) * 2 ^ g = m * 2 ^ e := by
    rw [Nat.cast_mul, zpow_two_toNat (by omega), mul_assoc, ← zpow_two_add, Int.sub_add_cancel]
  unfold scaled signed
  cases neg
  · simpa using hpow
  · simpa using hpow

/-- Two data that stand for the same number, infinity or NaN. -/
inductive Datum.Same : Datum → Datum → Prop
  | nan : Same .nan .nan
  | inf (neg : Bool) : Same (.inf neg) (.inf neg)
  | finite {neg : Bool} {m m' : Nat} {e e' : Int} (h : (m * 2 ^ e : ℚ) = m' * 2 ^ e') :
      Same (.finite neg m e) (.finite neg m' e')

namespace Datum.Same

variable {a a' b b' : Datum}

theorem signed_eq {neg : Bool} {m m' : Nat} {e e' : Int} (h : (m * 2 ^ e : ℚ) = m' * 2 ^ e') :
    signed neg m e = signed neg m' e' := by
  rw [signed, signed, h]

theorem mant_eq_zero_iff {m m' : Nat} {e e' : Int} (h : (m * 2 ^ e : ℚ) = m' * 2 ^ e') :
    m = 0 ↔ m' = 0 := by
  have hm : (m * 2 ^ e : ℚ) = 0 ↔ m = 0 := by simp [(zpow_two_pos e).ne']
  have hm' : (m' * 2 ^ e' : ℚ) = 0 ↔ m' = 0 := by simp [(zpow_two_pos e').ne']
  rw [← hm, ← hm', h]

theorem negate (h : Same a a') : Same a.negate a'.negate := by
  cases h with
  | nan => exact .nan
  | inf neg => exact .inf _
  | finite h => exact .finite h

/-- The size of a sum. -/
theorem size_add {s t : Bool} {m n : Nat} {e f : Int} :
    ∃ neg k g, (Datum.finite s m e).add (.finite t n f) = .finite neg k g ∧
      (k * 2 ^ g : ℚ) = |signed s m e + signed t n f| ∧
      (neg = if signed s m e + signed t n f = 0 then s && t
        else decide (signed s m e + signed t n f < 0)) := by
  obtain ⟨sum, hdef⟩ : ∃ sum, sum = scaled s m e (min e f) + scaled t n f (min e f) := ⟨_, rfl⟩
  have hsum : (sum : ℚ) * 2 ^ min e f = signed s m e + signed t n f := by
    rw [hdef, Int.cast_add, add_mul, scaled_mul (Int.min_le_left e f),
      scaled_mul (Int.min_le_right e f)]
  have hadd : (Datum.finite s m e).add (.finite t n f) =
      if sum = 0 then .finite (s && t) 0 (min e f)
      else .finite (sum < 0) sum.natAbs (min e f) := by
    rw [hdef]
    rfl
  have hpow := zpow_two_pos (min e f)
  rw [hadd, ← hsum]
  by_cases h0 : sum = 0
  · subst h0
    rw [if_pos rfl]
    exact ⟨_, _, _, rfl, by simp, by simp⟩
  · have hne : (sum : ℚ) * 2 ^ min e f ≠ 0 := mul_ne_zero (Int.cast_ne_zero.mpr h0) hpow.ne'
    have hneg : sum < 0 ↔ (sum : ℚ) * 2 ^ min e f < 0 := by
      constructor
      · exact fun h ↦ mul_neg_of_neg_of_pos (Int.cast_lt_zero.mpr h) hpow
      · exact fun h ↦ Int.cast_lt_zero.mp (neg_of_mul_neg_left h hpow.le)
    rw [if_neg h0, if_neg hne]
    refine ⟨_, _, _, rfl, ?_, decide_eq_decide.mpr hneg⟩
    rw [abs_mul, abs_of_pos hpow, Nat.cast_natAbs, Int.cast_abs]

theorem add (h : Same a a') (h' : Same b b') : Same (a.add b) (a'.add b') := by
  cases h with
  | nan =>
      cases h' <;> exact .nan
  | inf neg =>
      cases h' with
      | nan => exact .nan
      | inf neg' =>
          show Same (if neg = neg' then .inf neg else .nan) (if neg = neg' then .inf neg else .nan)
          split
          · exact .inf _
          · exact .nan
      | finite h' => exact .inf _
  | @finite s m m' e e' h =>
      cases h' with
      | nan => exact .nan
      | inf neg => exact .inf _
      | @finite t n n' f f' h' =>
          obtain ⟨neg, k, g, hadd, hsize, hneg⟩ := size_add (s := s) (t := t) (m := m) (n := n)
            (e := e) (f := f)
          obtain ⟨neg', k', g', hadd', hsize', hneg'⟩ := size_add (s := s) (t := t) (m := m')
            (n := n') (e := e') (f := f')
          rw [signed_eq h, signed_eq h', ← hneg'] at hneg
          rw [signed_eq h, signed_eq h', ← hsize'] at hsize
          rw [hadd, hadd', hneg]
          exact .finite hsize

theorem mul (h : Same a a') (h' : Same b b') : Same (a.mul b) (a'.mul b') := by
  -- an infinity times a number depends on whether the number is zero
  have hinf {s t : Bool} {n n' : Nat} {f f' : Int} (h : (n * 2 ^ f : ℚ) = n' * 2 ^ f') :
      Same (if n = 0 then .nan else .inf (xor s t)) (if n' = 0 then .nan else .inf (xor s t)) := by
    by_cases h0 : n = 0
    · rw [if_pos h0, if_pos ((mant_eq_zero_iff h).mp h0)]
      exact .nan
    · rw [if_neg h0, if_neg (mt (mant_eq_zero_iff h).mpr h0)]
      exact .inf _
  cases h with
  | nan =>
      cases h' <;> exact .nan
  | inf neg =>
      cases h' with
      | nan => exact .nan
      | inf neg' => exact .inf _
      | finite h' => exact hinf h'
  | @finite s m m' e e' h =>
      cases h' with
      | nan => exact .nan
      | inf neg =>
          simp only [Datum.mul]
          exact hinf h
      | @finite t n n' f f' h' =>
          refine .finite ?_
          rw [zpow_two_add, zpow_two_add]
          push_cast
          calc (m * n * (2 ^ e * 2 ^ f) : ℚ) = (m * 2 ^ e) * (n * 2 ^ f) := by ring
            _ = (m' * 2 ^ e') * (n' * 2 ^ f') := by rw [h, h']
            _ = _ := by ring

/-- The order of two numbers is that of the data. -/
theorem compare_finite (s t : Bool) (m n : Nat) (e f : Int) :
    (Datum.finite s m e).compare (.finite t n f) =
      some (Ord.compare (signed s m e) (signed t n f)) := by
  have hpow := zpow_two_pos (min e f)
  have hs : (scaled s m e (min e f) : ℚ) * 2 ^ min e f = signed s m e :=
    scaled_mul (Int.min_le_left e f)
  have ht : (scaled t n f (min e f) : ℚ) * 2 ^ min e f = signed t n f :=
    scaled_mul (Int.min_le_right e f)
  have hlt : scaled s m e (min e f) < scaled t n f (min e f) ↔ signed s m e < signed t n f := by
    rw [← hs, ← ht, mul_lt_mul_iff_left₀ hpow, Int.cast_lt]
  have heq : scaled s m e (min e f) = scaled t n f (min e f) ↔ signed s m e = signed t n f := by
    rw [← hs, ← ht, mul_left_inj' hpow.ne', Int.cast_inj]
  simp only [Datum.compare, LinearOrder.compare_eq_compareOfLessAndEq, compareOfLessAndEq, hlt,
    heq]

theorem compare (h : Same a a') (h' : Same b b') : a.compare b = a'.compare b' := by
  cases h with
  | nan => cases h' <;> rfl
  | inf neg => cases h' <;> rfl
  | finite h =>
      cases h' with
      | nan => rfl
      | inf neg => rfl
      | finite h' => rw [compare_finite, compare_finite, signed_eq h, signed_eq h']

end Datum.Same

/-! ## Encoding and decoding -/

variable {F : Format}

theorem ratio_eq (m : Nat) (e : Int) :
    ((m * 2 ^ e.toNat : Nat) : ℚ) / (2 ^ (-e).toNat : Nat) = m * 2 ^ e := by
  have h := div_toNat_eq m 1 (-e)
  rwa [neg_neg, one_mul, Nat.cast_one, div_one, zpow_neg, div_inv_eq_mul] at h

theorem two_pow_ne_zero (n : Nat) : 2 ^ n ≠ 0 := (Nat.two_pow_pos n).ne'

/-- Encoding depends on the number alone. -/
theorem encode_congr (hfrac : 0 < F.fracBits) {d d' : Datum} (h : Datum.Same d d') :
    encode F d = encode F d' := by
  cases h with
  | nan => rfl
  | inf neg => rfl
  | finite h =>
      refine congrArg (withSign F _) (roundRatio_congr hfrac ?_ ?_ ?_)
      · exact two_pow_ne_zero _
      · exact two_pow_ne_zero _
      · rw [ratio_eq, ratio_eq, h]

theorem signBit_eq : F.signBit = 2 ^ F.expBits * 2 ^ F.fracBits := pow_add 2 _ _

theorem infBits_lt_signBit : F.infBits < F.signBit := by
  rw [signBit_eq]
  exact Nat.mul_lt_mul_of_pos_right (Nat.pred_lt (two_pow_ne_zero _)) (Nat.two_pow_pos _)

/-- The fields of a pattern with its sign. -/
theorem decode_withSign {n : Nat} (hn : n < F.signBit) (neg : Bool) :
    decode F (withSign F neg n) =
      if n / 2 ^ F.fracBits = 2 ^ F.expBits - 1 then
        if n % 2 ^ F.fracBits = 0 then .inf neg else .nan
      else if n / 2 ^ F.fracBits = 0 then .finite neg (n % 2 ^ F.fracBits) F.emin
      else .finite neg (2 ^ F.fracBits + n % 2 ^ F.fracBits)
        (F.emin + (n / 2 ^ F.fracBits : Nat) - 1) := by
  have hsign : decide (withSign F neg n / F.signBit % 2 = 1) = neg := by
    cases neg with
    | false => simp [withSign, Nat.div_eq_of_lt hn]
    | true =>
        have hpos : 0 < F.signBit := Nat.two_pow_pos _
        simp [withSign, Nat.add_div_left n hpos, Nat.div_eq_of_lt hn]
  have hdiv : n / 2 ^ F.fracBits < 2 ^ F.expBits := by
    rw [signBit_eq] at hn
    exact Nat.div_lt_of_lt_mul (by rwa [Nat.mul_comm])
  have hexp : withSign F neg n / 2 ^ F.fracBits % 2 ^ F.expBits = n / 2 ^ F.fracBits := by
    cases neg with
    | false => exact Nat.mod_eq_of_lt hdiv
    | true =>
        rw [withSign, if_pos rfl, signBit_eq, Nat.mul_comm, Nat.mul_add_div (Nat.two_pow_pos _),
          Nat.add_mod_left, Nat.mod_eq_of_lt hdiv]
  have hfrac : withSign F neg n % 2 ^ F.fracBits = n % 2 ^ F.fracBits := by
    cases neg with
    | false => rfl
    | true => rw [withSign, if_pos rfl, signBit_eq, Nat.mul_comm, Nat.mul_add_mod]
  unfold decode
  simp only [hsign, hexp, hfrac]

/-- A pattern below that of infinity is the one of its value. -/
theorem decode_of_lt_infBits {n : Nat} (hn : n < F.infBits) (neg : Bool) :
    ∃ m e, decode F (withSign F neg n) = .finite neg m e ∧ (m * 2 ^ e : ℚ) = value F n := by
  have hmax : n / 2 ^ F.fracBits ≠ 2 ^ F.expBits - 1 :=
    (Nat.div_lt_of_lt_mul (by rw [Nat.mul_comm]; exact hn)).ne
  rw [decode_withSign (hn.trans infBits_lt_signBit), if_neg hmax]
  by_cases h0 : n / 2 ^ F.fracBits = 0
  · have hlt : n < 2 ^ F.fracBits := (Nat.div_eq_zero_iff_lt (Nat.two_pow_pos _)).mp h0
    rw [if_pos h0, Nat.mod_eq_of_lt hlt]
    exact ⟨_, _, rfl, by rw [value, units_of_lt hlt]⟩
  · rw [if_neg h0]
    refine ⟨_, _, rfl, ?_⟩
    have hlt : ¬ n < 2 ^ F.fracBits := fun h ↦ h0 (Nat.div_eq_of_lt h)
    obtain ⟨s, hs⟩ := Nat.exists_eq_succ_of_ne_zero h0
    have hexp : F.emin + (s.succ : Nat) - 1 = s + F.emin := by omega
    rw [value, units, if_neg hlt, ulp, hs, hexp, zpow_two_add, zpow_natCast, Nat.succ_sub_one]
    push_cast
    ring

theorem decode_infBits (neg : Bool) : decode F (withSign F neg F.infBits) = .inf neg := by
  rw [decode_withSign infBits_lt_signBit, Format.infBits, Nat.mul_div_cancel _ (Nat.two_pow_pos _),
    if_pos rfl, Nat.mul_mod_left, if_pos rfl]

theorem nanBits_lt_signBit (hfrac : 0 < F.fracBits) : F.nanBits < F.signBit := by
  have hlt : 2 ^ (F.fracBits - 1) < 2 ^ F.fracBits :=
    Nat.pow_lt_pow_right one_lt_two (Nat.pred_lt hfrac.ne')
  rw [Format.nanBits, Format.infBits, signBit_eq]
  calc (2 ^ F.expBits - 1) * 2 ^ F.fracBits + 2 ^ (F.fracBits - 1)
      < (2 ^ F.expBits - 1) * 2 ^ F.fracBits + 2 ^ F.fracBits := Nat.add_lt_add_left hlt _
    _ = (2 ^ F.expBits - 1 + 1) * 2 ^ F.fracBits := by ring
    _ = _ := by rw [Nat.sub_add_cancel (Nat.one_le_two_pow)]

theorem decode_nanBits (hfrac : 0 < F.fracBits) : decode F F.nanBits = .nan := by
  have hlt : 2 ^ (F.fracBits - 1) < 2 ^ F.fracBits :=
    Nat.pow_lt_pow_right one_lt_two (Nat.pred_lt hfrac.ne')
  have hnan := decode_withSign (nanBits_lt_signBit hfrac) false
  have hdiv : F.nanBits / 2 ^ F.fracBits = 2 ^ F.expBits - 1 := by
    rw [Format.nanBits, Format.infBits, Nat.mul_comm, Nat.mul_add_div (Nat.two_pow_pos _),
      Nat.div_eq_of_lt hlt, Nat.add_zero]
  have hmod : F.nanBits % 2 ^ F.fracBits = 2 ^ (F.fracBits - 1) := by
    rw [Format.nanBits, Format.infBits, Nat.mul_comm, Nat.mul_add_mod, Nat.mod_eq_of_lt hlt]
  rw [if_pos hdiv, hmod, if_neg (two_pow_ne_zero _)] at hnan
  exact hnan

/-- The significand and the exponent of a pattern. -/
theorem decode_bounds {bits m : Nat} {neg : Bool} {e : Int} (h : decode F bits = .finite neg m e) :
    m < 2 ^ (F.fracBits + 1) ∧ F.emin ≤ e ∧ e + 2 ≤ F.emin + 2 ^ F.expBits := by
  have hmod := Nat.mod_lt bits (Nat.two_pow_pos F.fracBits)
  have hexp := Nat.mod_lt (bits / 2 ^ F.fracBits) (Nat.two_pow_pos F.expBits)
  have hcast : ((2 ^ F.expBits : Nat) : Int) = 2 ^ F.expBits := by norm_cast
  rw [pow_succ]
  unfold decode at h
  dsimp only at h
  split at h
  · split at h <;> cases h
  · rename_i hmax
    split at h
    · rename_i h0
      cases h
      omega
    · rename_i h0
      cases h
      omega

/-- Every pattern is a smaller one with a sign. -/
theorem exists_withSign {bits : Nat} (h : bits < 2 * F.signBit) :
    ∃ neg n, n < F.signBit ∧ bits = withSign F neg n := by
  rcases Nat.lt_or_ge bits F.signBit with hlt | hge
  · exact ⟨false, bits, hlt, rfl⟩
  · refine ⟨true, bits - F.signBit, by omega, ?_⟩
    rw [withSign, if_pos rfl, Nat.add_sub_cancel' hge]

/-- A pattern that is no NaN is the one its datum is encoded as. -/
theorem encode_decode (hfrac : 0 < F.fracBits) {bits : Nat} (hbits : bits < 2 * F.signBit)
    (h : decode F bits ≠ .nan) : encode F (decode F bits) = bits := by
  obtain ⟨neg, n, hn, rfl⟩ := exists_withSign hbits
  rcases Nat.lt_or_ge n F.infBits with hlt | hge
  · obtain ⟨m, e, hdecode, hvalue⟩ := decode_of_lt_infBits hlt neg
    rw [hdecode]
    exact congrArg (withSign F neg)
      (roundRatio_of_value hfrac (two_pow_ne_zero _) hlt.le ((ratio_eq m e).trans hvalue))
  · -- the exponent field is full, so the fraction of what is no NaN is zero
    have hdiv : n / 2 ^ F.fracBits = 2 ^ F.expBits - 1 := by
      have hlo : 2 ^ F.expBits - 1 ≤ n / 2 ^ F.fracBits :=
        (Nat.le_div_iff_mul_le (Nat.two_pow_pos _)).mpr hge
      have hhi : n / 2 ^ F.fracBits < 2 ^ F.expBits := by
        rw [signBit_eq] at hn
        exact Nat.div_lt_of_lt_mul (by rwa [Nat.mul_comm])
      omega
    have hdecode := decode_withSign hn neg
    rw [if_pos hdiv] at hdecode
    by_cases hmod : n % 2 ^ F.fracBits = 0
    · have hinf : n = F.infBits := by
        rw [← Nat.div_add_mod n (2 ^ F.fracBits), hmod, hdiv, Nat.mul_comm]
        rfl
      rw [hinf, decode_infBits]
      rfl
    · rw [if_neg hmod] at hdecode
      exact absurd hdecode h

theorem withSign_lt (neg : Bool) {n : Nat} (hn : n ≤ F.infBits) :
    withSign F neg n < 2 * F.signBit := by
  have hinf := infBits_lt_signBit (F := F)
  unfold withSign
  split <;> omega

theorem encode_lt (hfrac : 0 < F.fracBits) (d : Datum) : encode F d < 2 * F.signBit := by
  cases d with
  | nan => exact (nanBits_lt_signBit hfrac).trans_le (Nat.le_mul_of_pos_left _ two_pos)
  | inf neg => exact withSign_lt neg le_rfl
  | finite neg m e => exact withSign_lt neg (roundRatio_le _ _)

theorem divide_lt (hfrac : 0 < F.fracBits) (d d' : Datum) : divide F d d' < 2 * F.signBit := by
  have hnan : F.nanBits < 2 * F.signBit :=
    (nanBits_lt_signBit hfrac).trans_le (Nat.le_mul_of_pos_left _ two_pos)
  cases d with
  | nan => cases d' <;> exact hnan
  | inf s =>
      cases d' with
      | nan => exact hnan
      | inf t => exact hnan
      | finite t n f => exact withSign_lt _ le_rfl
  | finite s m e =>
      cases d' with
      | nan => exact hnan
      | inf t => exact withSign_lt _ (Nat.zero_le _)
      | finite t n f =>
          show (if n = 0 then if m = 0 then _ else _ else _) < _
          split
          · split
            · exact hnan
            · exact withSign_lt _ le_rfl
          · exact withSign_lt _ (roundRatio_le _ _)

end LowerIrUtils.Ieee754
