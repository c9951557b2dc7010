import LowerIrUtils.Float.Decoding

/-!
# Single precision through double precision

Sums, products and quotients of two numbers of a format are far from the midpoints of the
format, in the sense of a format with more than twice the digits.  So an operation carried
out in the wide format, with a second rounding at its end, gives what one rounding of the
exact result does; for single and double precision this is `F32.encode_arith`.  Widening
itself is exact, and keeps the order and the NaNs.
-/

namespace LowerIrUtils.Ieee754

/-! ## Far from a number with few digits -/

/-- Two multiples of a power of two that differ do so by at least that power. -/
theorem zpow_le_abs_sub {a b : Int} {s t u : Int} (hs : u ≤ s) (ht : u ≤ t)
    (h : (a * 2 ^ s : ℚ) ≠ b * 2 ^ t) : (2 : ℚ) ^ u ≤ |(a * 2 ^ s - b * 2 ^ t : ℚ)| := by
  obtain ⟨i, rfl⟩ := Int.le.dest hs
  obtain ⟨j, rfl⟩ := Int.le.dest ht
  have hsplit : (a * 2 ^ (u + (i : Int)) - b * 2 ^ (u + (j : Int)) : ℚ) =
      ((a * 2 ^ i - b * 2 ^ j : Int) : ℚ) * 2 ^ u := by
    rw [zpow_two_add, zpow_two_add, zpow_natCast, zpow_natCast]
    push_cast
    ring
  have hne : a * 2 ^ i - b * 2 ^ j ≠ 0 := by
    intro h0
    rw [← sub_ne_zero, hsplit, h0, Int.cast_zero, zero_mul] at h
    exact h rfl
  rw [hsplit, abs_mul, abs_of_pos (zpow_two_pos u), ← Int.cast_abs]
  refine le_mul_of_one_le_left (zpow_two_pos u).le ?_
  exact_mod_cast Int.one_le_abs hne

theorem natCast_zpow_le_abs_sub {a b : Nat} {s t u : Int} (hs : u ≤ s) (ht : u ≤ t)
    (h : (a * 2 ^ s : ℚ) ≠ b * 2 ^ t) : (2 : ℚ) ^ u ≤ |(a * 2 ^ s - b * 2 ^ t : ℚ)| := by
  have := zpow_le_abs_sub (a := a) (b := b) hs ht (by exact_mod_cast h)
  exact_mod_cast this

/-- A number with few digits is far from any other with few digits. -/
theorem far_of_digits {b P Q : Nat} (hP : P < 2 ^ b) (hQ : Q < 2 ^ (b + 1)) (s t : Int) :
    Far b (Q * 2 ^ t) (P * 2 ^ s) := by
  by_cases heq : (P * 2 ^ s : ℚ) = Q * 2 ^ t
  · exact .inl heq
  right
  have hP' : (P : ℚ) < 2 ^ b := by exact_mod_cast hP
  have hQ' : (Q : ℚ) < 2 ^ (b + 1) := by exact_mod_cast hQ
  have hpow : (0 : ℚ) < 2 ^ (b + 1) := pow_pos two_pos _
  rcases Int.le_total t s with hts | hst
  · calc (Q * 2 ^ t : ℚ) < 2 ^ (b + 1) * 2 ^ t := mul_lt_mul_of_pos_right hQ' (zpow_two_pos t)
      _ ≤ _ := mul_le_mul_of_nonneg_left (natCast_zpow_le_abs_sub hts le_rfl heq) hpow.le
  · by_contra hnot
    have hgap := natCast_zpow_le_abs_sub le_rfl hst heq
    have hle : (2 : ℚ) ^ (b + 1) * |(P * 2 ^ s - Q * 2 ^ t : ℚ)| ≤ Q * 2 ^ t := not_lt.mp hnot
    -- the two differ by a factor of two at most
    have htwo : 2 * |(P * 2 ^ s - Q * 2 ^ t : ℚ)| ≤ Q * 2 ^ t := by
      refine le_trans (mul_le_mul_of_nonneg_right ?_ (abs_nonneg _)) hle
      exact le_self_pow₀ one_le_two (Nat.succ_ne_zero b)
    have habs := neg_abs_le (P * 2 ^ s - Q * 2 ^ t : ℚ)
    have hlt : (Q * 2 ^ t : ℚ) < 2 ^ (b + 1) * 2 ^ s := by
      have := mul_lt_mul_of_pos_right hP' (zpow_two_pos s)
      rw [pow_succ]
      linarith
    exact absurd (hle.trans_lt hlt) (not_lt.mpr (mul_le_mul_of_nonneg_left hgap hpow.le))

/-- Being far is a matter of scale. -/
theorem Far.of_mul {b : Nat} {m x c : ℚ} (hc : 0 < c) (h : Far b (c * m) (c * x)) : Far b m x := by
  rcases h with heq | hlt
  · exact .inl (mul_left_cancel₀ hc.ne' heq)
  · right
    rw [← mul_sub, abs_mul, abs_of_pos hc, mul_left_comm] at hlt
    exact lt_of_mul_lt_mul_left hlt hc.le

/-- A significand of `p` digits is not close to one of `p + 1`. -/
theorem zpow_le_abs_sub_of_digits {p c : Nat} {β j t : Int} (hβ : |β| < 2 ^ p)
    (hc : 2 ^ p ≤ 2 * c) :
    (2 : ℚ) ^ t ≤ |(β * 2 ^ j - (2 * c + 1 : Nat) * 2 ^ t : ℚ)| := by
  have hc' : (2 : ℚ) ^ p ≤ 2 * c := by exact_mod_cast hc
  rcases lt_or_ge t j with hj | hj
  · -- an even multiple and an odd one
    obtain ⟨i, hi⟩ := Int.le.dest (Int.add_one_le_of_lt hj)
    have hsplit : (β * 2 ^ j : ℚ) = ((2 * (β * 2 ^ i) : Int) : ℚ) * 2 ^ t := by
      rw [← hi, zpow_two_add, zpow_two_add, zpow_one, zpow_natCast]
      push_cast
      ring
    have hne : (((2 * (β * 2 ^ i) : Int) : ℚ) * 2 ^ t) ≠ ((2 * c + 1 : Nat) : Int) * 2 ^ t := by
      intro h
      have h' := mul_right_cancel₀ (zpow_two_pos t).ne' h
      have : 2 * (β * 2 ^ i) = ((2 * c + 1 : Nat) : Int) := by exact_mod_cast h'
      omega
    have := zpow_le_abs_sub le_rfl le_rfl hne
    rw [hsplit]
    exact_mod_cast this
  · have hβ' : |(β : ℚ)| ≤ 2 ^ p := by
      have : ((|β| : Int) : ℚ) < 2 ^ p := by exact_mod_cast hβ
      exact_mod_cast this.le
    have hle : (β * 2 ^ j : ℚ) ≤ 2 ^ p * 2 ^ t := by
      refine le_trans (le_abs_self _) ?_
      rw [abs_mul, abs_of_pos (zpow_two_pos j)]
      exact mul_le_mul hβ' (zpow_two_le hj) (zpow_two_pos j).le (pow_pos two_pos _).le
    have hm : ((2 ^ p + 1) * 2 ^ t : ℚ) ≤ (2 * c + 1 : Nat) * 2 ^ t := by
      refine mul_le_mul_of_nonneg_right ?_ (zpow_two_pos t).le
      push_cast
      linarith
    rw [abs_sub_comm]
    refine le_trans ?_ (le_abs_self _)
    linarith

/-- A sum in which one term is far below the midpoint. -/
theorem far_add_small {b p c : Nat} {α β i j t : Int} (hb : 2 * p + 1 ≤ b) (hα : |α| < 2 ^ p)
    (hβ : |β| < 2 ^ p) (hc : 2 ^ p ≤ 2 * c) (hc' : c < 2 ^ p) (hi : i + b + 1 ≤ t + p) :
    Far b ((2 * c + 1 : Nat) * 2 ^ t) (α * 2 ^ i + β * 2 ^ j) := by
  right
  have hgap := zpow_le_abs_sub_of_digits (j := j) (t := t) hβ hc
  have hα' : |(α : ℚ)| ≤ 2 ^ p := by
    have : ((|α| : Int) : ℚ) < 2 ^ p := by exact_mod_cast hα
    exact_mod_cast this.le
  have hsmall : |(α * 2 ^ i : ℚ)| ≤ 2 ^ (t - 1) := by
    rw [abs_mul, abs_of_pos (zpow_two_pos i)]
    calc |(α : ℚ)| * 2 ^ i ≤ 2 ^ p * 2 ^ i :=
          mul_le_mul_of_nonneg_right hα' (zpow_two_pos i).le
      _ = 2 ^ ((p : Int) + i) := by rw [zpow_two_add, zpow_natCast]
      _ ≤ 2 ^ (t - 1) := zpow_two_le (by omega)
  have htri : (2 : ℚ) ^ (t - 1) ≤
      |(α * 2 ^ i + β * 2 ^ j - (2 * c + 1 : Nat) * 2 ^ t : ℚ)| := by
    have hhalf : (2 : ℚ) ^ t = 2 * 2 ^ (t - 1) := by
      rw [zpow_sub_one₀ two_ne_zero]
      ring
    have := abs_sub_abs_le_abs_add (β * 2 ^ j - (2 * c + 1 : Nat) * 2 ^ t : ℚ) (α * 2 ^ i)
    rw [show (β * 2 ^ j - (2 * c + 1 : Nat) * 2 ^ t + α * 2 ^ i : ℚ) =
      α * 2 ^ i + β * 2 ^ j - (2 * c + 1 : Nat) * 2 ^ t by ring] at this
    linarith
  have hlt : ((2 * c + 1 : Nat) : ℚ) < 2 ^ (p + 1) := by
    have : 2 * c + 1 < 2 ^ (p + 1) := by
      rw [pow_succ]
      omega
    exact_mod_cast this
  calc ((2 * c + 1 : Nat) * 2 ^ t : ℚ)
      < 2 ^ (p + 1) * 2 ^ t := mul_lt_mul_of_pos_right hlt (zpow_two_pos t)
    _ = 2 ^ ((p : Int) + 1 + t) := by
        rw [zpow_two_add, ← Nat.cast_succ, zpow_natCast]
    _ ≤ 2 ^ ((b : Int) + 1 + (t - 1)) := zpow_two_le (by omega)
    _ = 2 ^ (b + 1) * 2 ^ (t - 1) := by
        rw [zpow_two_add ((b : Int) + 1), ← Nat.cast_succ, zpow_natCast]
    _ ≤ _ := mul_le_mul_of_nonneg_left htri (pow_pos two_pos _).le

/-- A sum of two numbers of `p` digits is far from a midpoint: from one with the digits of a
normal number, or one below the terms. -/
theorem far_add {b p c : Nat} {α β i j t : Int} (hb : 2 * p + 1 ≤ b) (hα : |α| < 2 ^ p)
    (hβ : |β| < 2 ^ p) (hc : (t < i ∧ t < j) ∨ 2 ^ p ≤ 2 * c) (hc' : c < 2 ^ p) :
    Far b ((2 * c + 1 : Nat) * 2 ^ t) (α * 2 ^ i + β * 2 ^ j) := by
  by_cases hclose : t + p ≤ i + b ∧ t + p ≤ j + b
  · -- both terms are multiples of a unit that is large enough
    by_cases heq : (α * 2 ^ i + β * 2 ^ j : ℚ) = (2 * c + 1 : Nat) * 2 ^ t
    · exact .inl heq
    right
    obtain ⟨u, hu⟩ : ∃ u, u = t + p - b := ⟨_, rfl⟩
    obtain ⟨i', hi'⟩ : ∃ i' : Nat, i = u + i' := ⟨(i - u).toNat, by omega⟩
    obtain ⟨j', hj'⟩ : ∃ j' : Nat, j = u + j' := ⟨(j - u).toNat, by omega⟩
    have hsum : (α * 2 ^ i + β * 2 ^ j : ℚ) = ((α * 2 ^ i' + β * 2 ^ j' : Int) : ℚ) * 2 ^ u := by
      rw [hi', hj', zpow_two_add, zpow_two_add, zpow_natCast, zpow_natCast]
      push_cast
      ring
    have hgap : (2 : ℚ) ^ u ≤ |(α * 2 ^ i + β * 2 ^ j - (2 * c + 1 : Nat) * 2 ^ t : ℚ)| := by
      rw [hsum] at heq ⊢
      have := zpow_le_abs_sub (b := ((2 * c + 1 : Nat) : Int)) (u := u) (t := t) le_rfl (by omega)
        (by exact_mod_cast heq)
      exact_mod_cast this
    have hlt : ((2 * c + 1 : Nat) : ℚ) < 2 ^ (p + 1) := by
      have : 2 * c + 1 < 2 ^ (p + 1) := by
        rw [pow_succ]
        omega
      exact_mod_cast this
    calc ((2 * c + 1 : Nat) * 2 ^ t : ℚ)
        < 2 ^ (p + 1) * 2 ^ t := mul_lt_mul_of_pos_right hlt (zpow_two_pos t)
      _ = 2 ^ ((b : Int) + 1 + u) := by
          rw [← zpow_natCast, ← zpow_two_add]
          congr 1
          push_cast
          omega
      _ = 2 ^ (b + 1) * 2 ^ u := by
          rw [zpow_two_add ((b : Int) + 1), ← Nat.cast_succ, zpow_natCast]
      _ ≤ _ := mul_le_mul_of_nonneg_left hgap (pow_pos two_pos _).le
  · have hnormal : 2 ^ p ≤ 2 * c := by
      refine hc.resolve_left ?_
      rintro ⟨hi, hj⟩
      omega
    by_cases hi : i + b + 1 ≤ t + p
    · exact far_add_small hb hα hβ hnormal hc' hi
    · have hj : j + b + 1 ≤ t + p := by omega
      rw [add_comm (α * 2 ^ i : ℚ)]
      exact far_add_small hb hβ hα hnormal hc' hj

/-! ## The wide operation -/

variable {F W G : Format}

namespace DoubleWide

section

variable {m n : Nat} {e f : Int} {k : Nat}

/-- A sum of two numbers of the narrow format is far from its midpoints. -/
theorem far_add (h : DoubleWide W G) (hm : m < 2 ^ (G.fracBits + 1)) (he : G.emin ≤ e)
    (hn : n < 2 ^ (G.fracBits + 1)) (hf : G.emin ≤ f) (s t : Bool) (k : Nat) :
    Far W.fracBits (mid G k) (2 * |signed s m e + signed t n f|) := by
  obtain ⟨u, q, rfl, hq⟩ := exists_digits (F := G) k
  have hfrac := h.fracBits
  have hc : (G.emin + u < e + 1 ∧ G.emin + u < f + 1) ∨ 2 ^ (G.fracBits + 1) ≤ 2 * q := by
    rcases hq.normal with rfl | hq
    · exact .inl (by omega)
    · right
      rw [pow_succ]
      omega
  have hmid : mid G (u * 2 ^ G.fracBits + q) = (2 * q + 1 : Nat) * 2 ^ (G.emin + u) := by
    rw [hq.mid]
    push_cast
    ring
  have hfar {α β : Int} (hα : |α| < 2 ^ (G.fracBits + 1)) (hβ : |β| < 2 ^ (G.fracBits + 1)) :=
    Ieee754.far_add (i := e + 1) (j := f + 1) (b := W.fracBits) (by omega) hα hβ hc hq.lt
  have hsize (neg : Bool) {c : Nat} (hlt : c < 2 ^ (G.fracBits + 1)) :
      |(if neg then -(c : Int) else c)| < 2 ^ (G.fracBits + 1) := by
    have hlt' : (c : Int) < 2 ^ (G.fracBits + 1) := by exact_mod_cast hlt
    cases neg <;> simpa using hlt'
  have hsum (σ : Bool) :
      2 * ((if σ then -1 else 1 : ℚ) * (signed s m e + signed t n f)) =
        ((if (xor σ s) then -(m : Int) else m : Int) : ℚ) * 2 ^ (e + 1) +
          ((if (xor σ t) then -(n : Int) else n : Int) : ℚ) * 2 ^ (f + 1) := by
    rw [zpow_add_one₀ two_ne_zero, zpow_add_one₀ two_ne_zero, signed, signed]
    cases σ <;> cases s <;> cases t <;> simp <;> ring
  rw [hmid]
  rcases le_total 0 (signed s m e + signed t n f) with hpos | hneg
  · have := hsum false
    rw [if_neg Bool.false_ne_true, one_mul] at this
    rw [abs_of_nonneg hpos, this]
    exact hfar (hsize _ hm) (hsize _ hn)
  · have := hsum true
    rw [if_pos rfl, neg_one_mul] at this
    rw [abs_of_nonpos hneg, this]
    exact hfar (hsize _ hm) (hsize _ hn)

theorem mid_eq (k : Nat) :
    ∃ (Q : Nat) (t : Int), Q < 2 ^ (G.fracBits + 2) ∧ mid G k = Q * 2 ^ t := by
  obtain ⟨s, q, rfl, hq⟩ := exists_digits (F := G) k
  refine ⟨2 * q + 1, G.emin + s, ?_, ?_⟩
  · have := hq.lt
    rw [pow_succ 2 (G.fracBits + 1)]
    omega
  · rw [hq.mid]
    push_cast
    ring

theorem far_mul (h : DoubleWide W G) (hm : m < 2 ^ (G.fracBits + 1))
    (hn : n < 2 ^ (G.fracBits + 1)) (e : Int) (k : Nat) :
    Far W.fracBits (mid G k) (2 * ((m * n : Nat) * 2 ^ e)) := by
  obtain ⟨Q, t, hQ, hmid⟩ := mid_eq (G := G) k
  have hfrac := h.fracBits
  have hP : m * n < 2 ^ W.fracBits := by
    have hlt : m * n < 2 ^ (G.fracBits + 1) * 2 ^ (G.fracBits + 1) := Nat.mul_lt_mul'' hm hn
    rw [← pow_add] at hlt
    exact hlt.trans_le (Nat.pow_le_pow_right two_pos (by omega))
  have hQ' : Q < 2 ^ (W.fracBits + 1) :=
    hQ.trans_le (Nat.pow_le_pow_right two_pos (by omega))
  have hfar := far_of_digits hP hQ' (e + 1) t
  rw [hmid]
  rwa [zpow_add_one₀ two_ne_zero, mul_comm _ (2 : ℚ), mul_left_comm] at hfar

theorem far_div (h : DoubleWide W G) (hm : m < 2 ^ (G.fracBits + 1))
    (hn : n < 2 ^ (G.fracBits + 1)) (hn0 : n ≠ 0) (e : Int) (k : Nat) :
    Far W.fracBits (mid G k) (2 * (m / n / 2 ^ e)) := by
  obtain ⟨Q, t, hQ, hmid⟩ := mid_eq (G := G) k
  have hfrac := h.fracBits
  have hpos : (0 : ℚ) < n := Nat.cast_pos.mpr (Nat.pos_of_ne_zero hn0)
  have hpow := zpow_two_pos e
  have hP : m < 2 ^ W.fracBits := hm.trans_le (Nat.pow_le_pow_right two_pos (by omega))
  have hQ' : n * Q < 2 ^ (W.fracBits + 1) := by
    have hlt : n * Q < 2 ^ (G.fracBits + 1) * 2 ^ (G.fracBits + 2) := Nat.mul_lt_mul'' hn hQ
    rw [← pow_add] at hlt
    exact hlt.trans_le (Nat.pow_le_pow_right two_pos (by omega))
  refine Far.of_mul (c := n * 2 ^ e) (mul_pos hpos hpow) ?_
  have hfar := far_of_digits hP hQ' 1 (t + e)
  rw [hmid]
  convert hfar using 1
  · rw [zpow_two_add]
    push_cast
    ring
  · rw [zpow_one]
    field_simp

end

/-! ### Rounding the results -/

/-- The wide result of a ratio is rounded to the narrow one. -/
theorem encode_decode_roundRatio (h : DoubleWide W G) {num den : Nat} (hden : den ≠ 0)
    (hfar : ∀ k, Far W.fracBits (mid G k) (2 * (num / den))) (neg : Bool) :
    encode G (decode W (withSign W neg (roundRatio W num den))) =
      withSign G neg (roundRatio G num den) := by
  have hround {num' den' : Nat} (hden' : den' ≠ 0)
      (hvalue : (num' / den' : ℚ) = value W (roundRatio W num den)) :=
    h.roundRatio_roundRatio hden hden' (fun k _ ↦ hfar k) hvalue
  rcases Nat.lt_or_eq_of_le (roundRatio_le (F := W) num den) with hlt | heq
  · obtain ⟨m, e, hdecode, hvalue⟩ := decode_of_lt_infBits hlt neg
    rw [hdecode]
    exact congrArg (withSign G neg) (hround (two_pow_ne_zero _) ((ratio_eq m e).trans hvalue))
  · -- past the greatest number of the wide format is past all midpoints of the narrow one
    have hvalue := ratio_eq (units W W.infBits) W.emin
    rw [heq] at hround
    rw [heq, decode_infBits, ← hround (two_pow_ne_zero _) hvalue]
    refine congrArg (withSign G neg) (Nat.le_antisymm ?_ (roundRatio_le _ _))
    refine Nat.le_of_not_lt fun hlt ↦ ?_
    obtain ⟨n, -, hn, hmid⟩ := h.exists_value_eq_mid hlt
    refine Nat.lt_irrefl _ ((lt_roundRatio_iff h.pos (two_pow_ne_zero _) hlt).mpr (.inl ?_))
    rw [hvalue, ← hmid]
    exact mul_lt_mul_of_pos_left (strictMono_value hn) two_pos

/-- The wide result of an operation is rounded to the narrow one. -/
theorem encode_decode_encode (h : DoubleWide W G) {d : Datum}
    (hfar : ∀ neg m e, d = .finite neg m e → ∀ k, Far W.fracBits (mid G k) (2 * (m * 2 ^ e))) :
    encode G (decode W (encode W d)) = encode G d := by
  cases d with
  | nan => exact congrArg (encode G) (decode_nanBits h.pos_wide)
  | inf neg => exact congrArg (encode G) (decode_infBits neg)
  | finite neg m e =>
      refine h.encode_decode_roundRatio (two_pow_ne_zero _) (fun k ↦ ?_) neg
      rw [ratio_eq]
      exact hfar neg m e rfl k

/-- Widening a number of the narrow format keeps it as it is. -/
theorem same_decode_encode (h : DoubleWide W G) (bits : Nat) :
    Datum.Same (decode W (encode W (decode G bits))) (decode G bits) := by
  cases hd : decode G bits with
  | nan =>
      rw [show decode W (encode W .nan) = .nan from decode_nanBits h.pos_wide]
      exact .nan
  | inf neg =>
      rw [show decode W (encode W (.inf neg)) = .inf neg from decode_infBits neg]
      exact .inf neg
  | finite neg m e =>
      obtain ⟨hm, hlo, hhi⟩ := decode_bounds hd
      obtain ⟨n, hn, hvalue⟩ : ∃ n, n < W.infBits ∧ value W n = m * 2 ^ e := by
        rcases Nat.eq_zero_or_pos m with rfl | hpos
        · obtain ⟨n, -, hn, -⟩ := h.exists_value_eq_mid (k := 0) (by
            refine Nat.mul_pos ?_ (Nat.two_pow_pos _)
            have hcast : ((2 ^ G.expBits : Nat) : Int) = 2 ^ G.expBits := by norm_cast
            omega)
          exact ⟨0, Nat.zero_lt_of_lt hn, by rw [value_zero, Nat.cast_zero, zero_mul]⟩
        · have hlt : m < 2 ^ (G.fracBits + 2) :=
            hm.trans (Nat.pow_lt_pow_right one_lt_two (Nat.lt_succ_self _))
          obtain ⟨n, -, hn, hvalue⟩ := h.exists_value_eq hpos.ne' hlt (by omega) hhi
          exact ⟨n, hn, hvalue⟩
      have hround := roundRatio_of_value h.pos_wide (two_pow_ne_zero (-e).toNat) hn.le
        ((ratio_eq m e).trans hvalue.symm)
      obtain ⟨m', e', hdecode, hvalue'⟩ := decode_of_lt_infBits hn neg
      show Datum.Same (decode W (withSign W neg (roundRatio W _ _))) _
      rw [hround, hdecode]
      exact .finite (hvalue'.trans hvalue)

/-! ### The operations -/

/-- The number of a datum, if it is one, has the digits and exponents of the format. -/
def Fits (G : Format) (d : Datum) : Prop :=
  ∀ neg m e, d = .finite neg m e → m < 2 ^ (G.fracBits + 1) ∧ G.emin ≤ e

theorem fits_decode (bits : Nat) : Fits G (decode G bits) := by
  intro neg m e h
  obtain ⟨hm, he, -⟩ := decode_bounds h
  exact ⟨hm, he⟩

theorem Fits.negate {d : Datum} (h : Fits G d) : Fits G d.negate := by
  intro neg m e heq
  cases d with
  | nan => cases heq
  | inf s => cases heq
  | finite s m' e' =>
      cases heq
      exact h _ _ _ rfl

section

variable {a a' b b' : Datum}

theorem encode_add (h : DoubleWide W G) (ha : Datum.Same a' a) (hb : Datum.Same b' b)
    (hfa : Fits G a) (hfb : Fits G b) :
    encode G (decode W (encode W (a'.add b'))) = encode G (a.add b) := by
  rw [encode_congr h.pos_wide (ha.add hb)]
  refine h.encode_decode_encode fun neg m e heq k ↦ ?_
  cases a with
  | nan => cases b <;> cases heq
  | inf s =>
      cases b with
      | nan => cases heq
      | inf t =>
          have heq' : (if s = t then Datum.inf s else .nan) = .finite neg m e := heq
          split at heq' <;> cases heq'
      | finite t n f => cases heq
  | finite s m' e' =>
      cases b with
      | nan => cases heq
      | inf t => cases heq
      | finite t n f =>
          obtain ⟨neg', k', g, hadd, hsize, -⟩ := Datum.Same.size_add (s := s) (t := t) (m := m')
            (n := n) (e := e') (f := f)
          rw [hadd] at heq
          cases heq
          obtain ⟨hm, he⟩ := hfa s m' e' rfl
          obtain ⟨hn, hf⟩ := hfb t n f rfl
          rw [hsize]
          exact h.far_add hm he hn hf s t k

theorem encode_mul (h : DoubleWide W G) (ha : Datum.Same a' a) (hb : Datum.Same b' b)
    (hfa : Fits G a) (hfb : Fits G b) :
    encode G (decode W (encode W (a'.mul b'))) = encode G (a.mul b) := by
  have hinf {s : Bool} {c : Nat} {neg : Bool} {m : Nat} {e : Int} :
      (if c = 0 then Datum.nan else .inf s) ≠ .finite neg m e := by
    split <;> exact Datum.noConfusion
  rw [encode_congr h.pos_wide (ha.mul hb)]
  refine h.encode_decode_encode fun neg m e heq k ↦ ?_
  cases a with
  | nan => cases b <;> cases heq
  | inf s =>
      cases b with
      | nan => cases heq
      | inf t => cases heq
      | finite t n f => exact absurd heq hinf
  | finite s m' e' =>
      cases b with
      | nan => cases heq
      | inf t =>
          simp only [Datum.mul] at heq
          exact absurd heq hinf
      | finite t n f =>
          cases heq
          exact h.far_mul (hfa s m' e' rfl).1 (hfb t n f rfl).1 _ k

/-- The quotient of two numbers, as a ratio. -/
theorem divide_finite {s t : Bool} {m n : Nat} {e f : Int} (hn : n ≠ 0) :
    divide F (.finite s m e) (.finite t n f) =
      withSign F (xor s t) (roundRatio F (m * 2 ^ (-(f - e)).toNat) (n * 2 ^ (f - e).toNat)) := by
  rw [neg_sub]
  exact if_neg hn

/-- A quotient that needs no rounding. -/
theorem encode_decode_divide (h : DoubleWide W G) (neg : Bool) :
    encode G (decode W W.nanBits) = G.nanBits ∧
      encode G (decode W (withSign W neg W.infBits)) = withSign G neg G.infBits ∧
      encode G (decode W (withSign W neg 0)) = withSign G neg 0 := by
  refine ⟨?_, ?_, ?_⟩
  · rw [decode_nanBits h.pos_wide]
    rfl
  · rw [decode_infBits]
    rfl
  · have hfar (k : Nat) : Far W.fracBits (mid G k) (2 * ((0 : Nat) / (1 : Nat))) := by
      have hmid := mid_pos (F := G) k
      refine .inr ?_
      rw [Nat.cast_zero, zero_div, mul_zero, zero_sub, abs_neg, abs_of_pos hmid]
      exact lt_mul_of_one_lt_left hmid (one_lt_pow₀ one_lt_two (Nat.succ_ne_zero _))
    exact h.encode_decode_roundRatio one_ne_zero hfar neg

theorem divide_congr (hfrac : 0 < F.fracBits) (ha : Datum.Same a' a) (hb : Datum.Same b' b) :
    divide F a' b' = divide F a b := by
  cases ha with
  | nan => cases hb <;> rfl
  | inf s => cases hb <;> rfl
  | @finite s m' m e' e ha =>
      cases hb with
      | nan => rfl
      | inf t => rfl
      | @finite t n' n f' f hb =>
          by_cases hn : n = 0
          · have hn' := (Datum.Same.mant_eq_zero_iff hb).mpr hn
            subst hn hn'
            have hm := Datum.Same.mant_eq_zero_iff ha
            show (if m' = 0 then _ else _) = (if m = 0 then _ else _)
            by_cases h0 : m = 0
            · rw [if_pos h0, if_pos (hm.mpr h0)]
            · rw [if_neg h0, if_neg (mt hm.mp h0)]
          · have hn' := mt (Datum.Same.mant_eq_zero_iff hb).mp hn
            rw [divide_finite hn, divide_finite hn']
            refine congrArg (withSign F _) (roundRatio_congr hfrac ?_ ?_ ?_)
            · exact Nat.mul_ne_zero hn' (two_pow_ne_zero _)
            · exact Nat.mul_ne_zero hn (two_pow_ne_zero _)
            · have hsplit (c d : Nat) (i j : Int) :
                  (c / d / 2 ^ (j - i) : ℚ) = (c * 2 ^ i) / (d * 2 ^ j) := by
                have := zpow_two_pos i
                rw [zpow_sub₀ two_ne_zero]
                field_simp
              rw [div_toNat_eq, div_toNat_eq, hsplit, hsplit, ha, hb]

theorem encode_div (h : DoubleWide W G) (ha : Datum.Same a' a) (hb : Datum.Same b' b)
    (hfa : Fits G a) (hfb : Fits G b) :
    encode G (decode W (divide W a' b')) = divide G a b := by
  have hexact := h.encode_decode_divide
  rw [divide_congr h.pos_wide ha hb]
  cases a with
  | nan => cases b <;> exact (hexact false).1
  | inf s =>
      cases b with
      | nan => exact (hexact false).1
      | inf t => exact (hexact false).1
      | finite t n f => exact (hexact (xor s t)).2.1
  | finite s m e =>
      cases b with
      | nan => exact (hexact false).1
      | inf t => exact (hexact (xor s t)).2.2
      | finite t n f =>
          by_cases hn : n = 0
          · subst hn
            show encode G (decode W (if m = 0 then _ else _)) = if m = 0 then _ else _
            split
            · exact (hexact false).1
            · exact (hexact (xor s t)).2.1
          · rw [divide_finite hn, divide_finite hn]
            refine h.encode_decode_roundRatio (Nat.mul_ne_zero hn (two_pow_ne_zero _)) ?_ _
            intro k
            rw [div_toNat_eq]
            exact h.far_div (hfa s m e rfl).1 (hfb t n f rfl).1 hn _ k

end

end DoubleWide

/-! ## Single and double precision -/

theorem doubleWide_binary : DoubleWide binary64 binary32 where
  pos := by decide
  fracBits := by decide
  emin := by decide
  range := by decide

namespace F64

theorem datum_ofNat_encode (d : Datum) :
    datum (.ofNat 64 (encode binary64 d)) = decode binary64 (encode binary64 d) := by
  have hlt : encode binary64 d < 2 ^ 64 := encode_lt (F := binary64) (by decide) d
  rw [datum, BitVec.toNat_ofNat, Nat.mod_eq_of_lt hlt]

theorem datum_ofNat_divide (d d' : Datum) :
    datum (.ofNat 64 (divide binary64 d d')) = decode binary64 (divide binary64 d d') := by
  have hlt : divide binary64 d d' < 2 ^ 64 := divide_lt (F := binary64) (by decide) d d'
  rw [datum, BitVec.toNat_ofNat, Nat.mod_eq_of_lt hlt]

/-- Which bits a NaN is given does not change what it is. -/
theorem datum_settle (nan : { z : F64 // z.isNaN }) (z : F64) :
    (settle nan z).datum = z.datum := by
  unfold settle
  split
  · rename_i hz
    rw [of_decide_eq_true nan.2, of_decide_eq_true hz]
  · rfl

/-- A result that is not a NaN keeps its bits. -/
theorem settle_of_ne_nan (nan : { z : F64 // z.isNaN }) {z : F64} (h : z.datum ≠ .nan) :
    settle nan z = z :=
  if_neg fun hz ↦ h (of_decide_eq_true hz)

end F64

namespace F32

theorem datum_settle (nan : { z : F32 // z.isNaN }) (z : F32) :
    (settle nan z).datum = z.datum := by
  unfold settle
  split
  · rename_i hz
    rw [of_decide_eq_true nan.2, of_decide_eq_true hz]
  · rfl

theorem settle_of_ne_nan (nan : { z : F32 // z.isNaN }) {z : F32} (h : z.datum ≠ .nan) :
    settle nan z = z :=
  if_neg fun hz ↦ h (of_decide_eq_true hz)

variable [NanBits]

/-- Widening is exact. -/
theorem same_datum_toF64 (x : F32) : Datum.Same x.toF64.datum x.datum := by
  rw [toF64, F64.datum_settle, F64.datum_ofNat_encode]
  exact doubleWide_binary.same_decode_encode _

/-- Narrowing takes a number that was widened back. -/
theorem toF32_toF64 {x : F32} (h : x.datum ≠ .nan) : x.toF64.toF32 = x := by
  have hlt : x.toNat < 2 * binary32.signBit := x.isLt
  have hx : BitVec.ofNat 32 (encode binary32 x.toF64.datum) = x := by
    rw [encode_congr (by decide) x.same_datum_toF64, datum, encode_decode (by decide) hlt h,
      BitVec.ofNat_toNat, BitVec.setWidth_eq]
  rw [F64.toF32, hx, settle_of_ne_nan _ h]

theorem compare_toF64 (x y : F32) :
    x.toF64.datum.compare y.toF64.datum = x.datum.compare y.datum :=
  x.same_datum_toF64.compare y.same_datum_toF64

/-- The result in double precision, rounded again, is the one of single precision. -/
theorem encode_arith (op : Arith) (x y : F32) :
    encode binary32 (F64.arith op x.toF64 y.toF64).datum =
      op.round binary32 x.datum y.datum := by
  have hx := x.same_datum_toF64
  have hy := y.same_datum_toF64
  have fits (z : F32) : DoubleWide.Fits binary32 z.datum := DoubleWide.fits_decode z.toNat
  rw [F64.arith, F64.datum_settle]
  cases op with
  | add =>
      show encode binary32 (F64.datum (.ofNat 64 (encode binary64 _))) = _
      rw [F64.datum_ofNat_encode, doubleWide_binary.encode_add hx hy (fits x) (fits y)]
      rfl
  | sub =>
      show encode binary32 (F64.datum (.ofNat 64 (encode binary64 _))) = _
      rw [F64.datum_ofNat_encode,
        doubleWide_binary.encode_add hx hy.negate (fits x) (fits y).negate]
      rfl
  | mul =>
      show encode binary32 (F64.datum (.ofNat 64 (encode binary64 _))) = _
      rw [F64.datum_ofNat_encode, doubleWide_binary.encode_mul hx hy (fits x) (fits y)]
      rfl
  | div =>
      show encode binary32 (F64.datum (.ofNat 64 (divide binary64 _ _))) = _
      rw [F64.datum_ofNat_divide, doubleWide_binary.encode_div hx hy (fits x) (fits y)]
      rfl

/-- Computing in double precision gives the result of single precision, up to the bits of a
NaN. -/
theorem toF32_arith (op : Arith) (x y : F32) :
    (F64.arith op x.toF64 y.toF64).toF32 =
      settle (NanBits.narrow (F64.arith op x.toF64 y.toF64)) (round op x y) := by
  rw [F64.toF32, encode_arith]
  rfl

end F32

end LowerIrUtils.Ieee754
